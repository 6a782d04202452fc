import Subcontexts.Member.Join

/-! The struct for the next process: a process that joins can allocate it exactly when the free list
of the allocator has a block for it. -/

namespace Subcontexts.Member
open Region Holding

section Walked
variable {pg : PageSize} {active : Bool} {granted : Addr → Bool} {fuel : Nat} {p : Process}
  {cur : Addr} {l : List Addr} {held rest : List (Lock × Mode)}

def Walks (pg : PageSize) (active : Bool) (granted : Addr → Bool) (fuel : Nat) (s : Sc)
    (l : List Addr) : Prop :=
  l.length ≤ fuel ∧ ∀ a ∈ l, granted a = true ∧ checkRegion pg s active a = .ok ()

structure Mappable (pg : PageSize) (granted : Addr → Bool) (fuel : Nat) (s : Sc) : Prop where
  active : ∃ first second l, (s.links s.activeRegions).Holds (first :: second :: l) ∧
    Walks pg true granted fuel s (second :: l)
  reserved : ∃ first l, (s.links s.reservedRegions).Holds (first :: l) ∧
    Walks pg false granted fuel s (first :: l)

theorem perm_erase {x : Lock × Mode} (h : held.Perm (x :: rest)) : (held.erase x).Perm rest := by
  have herase := h.erase x
  rwa [List.erase_cons_head] at herase

def AllShared (held : List (Lock × Mode)) : Prop := ∀ y ∈ held, y.2 = .shared

theorem AllShared.cons (h : AllShared held) (x : Lock) : AllShared ((x, .shared) :: held) :=
  List.forall_mem_cons.mpr ⟨rfl, h⟩

theorem AllShared.single (x : Lock) : AllShared [(x, .shared)] :=
  List.forall_mem_cons.mpr ⟨rfl, nofun⟩

theorem AllShared.erase (h : AllShared held) (x : Lock × Mode) : AllShared (held.erase x) :=
  fun y hy => h y (List.mem_of_mem_erase hy)

theorem AllShared.free (h : AllShared held) (a : Addr) :
    Free held (.region a) .shared := fun hmem => nomatch h _ hmem

theorem joinLoop_ok (hl : Seg (fun a => (p.world.sc.mem a).next) (some cur) l none)
    (hwalks : Walks pg active granted fuel p.world.sc l)
    (hheld : held.Perm ((.region cur, .shared) :: rest)) (hshared : AllShared held) :
    ∃ held', (joinLoop pg active granted fuel cur).exec ⟨p, held⟩ = (.ok true, ⟨p, held'⟩) ∧
      held'.Perm rest := by
  induction l generalizing cur fuel held with
  | nil => cases hl
  | cons a l ih =>
    obtain ⟨hcur, hl⟩ := hl
    obtain rfl := Option.some.inj hcur
    obtain ⟨hfuel, hgood⟩ := hwalks
    obtain ⟨hgranted, hcheck⟩ := hgood cur (List.mem_cons_self ..)
    cases fuel with
    | zero => exact absurd hfuel (Nat.not_succ_le_zero _)
    | succ fuel =>
      have hgo : ¬ (!granted cur) = true := by
        rw [hgranted]
        decide
      rw [joinLoop, exec_fetch_bind]
      dsimp only
      rw [hcheck, exec_call_ok_bind, if_neg hgo]
      cases hnext : (p.world.sc.mem cur).next with
      | none =>
        refine ⟨_, ?_, perm_erase hheld⟩
        rw [exec_unlock_bind, exec_pure]
      | some next =>
        have hl' : Seg (fun a => (p.world.sc.mem a).next) (some next) l none := hnext ▸ hl
        have hheld' : (((Lock.region next, Mode.shared) :: held).erase
            (.region cur, .shared)).Perm ((.region next, .shared) :: rest) :=
          perm_erase ((hheld.cons _).trans (.swap ..))
        obtain ⟨held', hrun, hperm⟩ := ih hl' ⟨Nat.le_of_succ_le_succ hfuel, fun b hb =>
          hgood b (List.mem_cons_of_mem _ hb)⟩ hheld' ((hshared.cons _).erase _)
        refine ⟨held', ?_, hperm⟩
        dsimp only
        rw [exec_bind_ok (exec_lock (hshared.free next)), exec_unlock_bind]
        exact hrun

theorem mapRegions_ok (h : Mappable pg granted fuel p.world.sc) :
    (mapRegions pg granted fuel).exec ⟨p, [(.root, .shared)]⟩ = (.ok true, ⟨p, []⟩) := by
  obtain ⟨first, second, l, ⟨hfirst, hsecond, hl⟩, hwalks⟩ := h.active
  obtain ⟨reserved, v, hv, hwalks'⟩ := h.reserved
  have hactive : p.world.sc.activeRegions = some first := hfirst
  have hnext : (p.world.sc.mem first).next = some second := hsecond
  have hreserved : p.world.sc.reservedRegions = some reserved := hv.1
  have hroot := AllShared.single .root
  have hone := hroot.cons (.region first)
  have htwo := hone.cons (.region second)
  have hthree := htwo.cons (.region reserved)
  unfold mapRegions
  rw [exec_fetch_bind]
  dsimp only
  rw [hactive]
  dsimp only
  rw [exec_bind_ok (exec_lock (hroot.free first)), hnext, hreserved]
  dsimp only
  rw [exec_bind_ok (exec_lock (hone.free second)),
    exec_bind_ok (exec_lock (htwo.free reserved)), exec_unlock_bind, exec_unlock_bind]
  have hheld : List.Perm [((Lock.region reserved), Mode.shared), (.region second, .shared),
      (.region first, .shared), (.root, .shared)] [(.region first, .shared), (.root, .shared),
      (.region second, .shared), (.region reserved, .shared)] :=
    (List.reverse_perm _).symm.trans (.swap ..)
  obtain ⟨held₁, hrun₁, hperm₁⟩ := @joinLoop_ok pg true granted fuel p second (second :: l) _ _
    ⟨rfl, hl⟩ hwalks (perm_erase (perm_erase hheld)) ((hthree.erase _).erase _)
  obtain rfl : held₁ = [(.region reserved, .shared)] := List.perm_singleton.mp hperm₁
  obtain ⟨held₂, hrun₂, hperm₂⟩ := @joinLoop_ok pg false granted fuel p reserved (reserved :: v) _ []
    ⟨rfl, hv.2⟩ hwalks' (.refl _) (.single _)
  obtain rfl : held₂ = [] := List.perm_nil.mp hperm₂
  rw [exec_bind_ok hrun₁, if_pos rfl, hrun₂]

end Walked

section Next
variable {pg : PageSize} {fp : FirstPage pg} {answers : JoinAnswers} {fuel : Nat} {p : Process}

/-- A member of the subcontext can allocate a struct, with its own view of the memory. -/
def MemberAllocates (fp : FirstPage pg) (fuel : Nat) (p : Process) : Prop :=
  ∃ member space result, member.lookup = true ∧
    initMalloc fp member fuel p.heap { p.world with space := space } = .ok result ∧
      result.1 ≠ none

/-- Nothing but the allocation of the next struct stands in the way of the process. -/
structure Admitted (fp : FirstPage pg) (answers : JoinAnswers) (fuel : Nat) (p : Process) :
    Prop where
  malloc : answers.malloc = true
  root : answers.root ≠ none
  magic : p.magic = true
  fresh : ¬ AlreadyMapped pg p
  placed : ¬ Misplaced pg answers p
  posted : p.preallocProc ≠ none
  quiet : p.pendingReservation = none
  mappable : Mappable pg answers.region fuel p.world.sc
  signals : answers.signals = true
  thread : answers.thread = true
  member : MemberAllocates fp fuel p

theorem joiner_allocates_iff (A : Admitted fp answers fuel p) :
    (∃ a t, (scJoin fp answers fuel).exec ⟨p, []⟩ = (.ok (some a), t) ∧
        t.state.preallocProc ≠ none) ↔ HasFit p.heap fp.sizeofProcess := by
  obtain ⟨root, hroot⟩ := Option.ne_none_iff_exists'.mp A.root
  obtain ⟨myProc, hposted⟩ := Option.ne_none_iff_exists'.mp A.posted
  rw [scJoin_exec A.malloc hroot A.magic, if_neg A.fresh, if_neg A.placed, hposted]
  dsimp only
  have hrest := @joinRest_ends pg fp answers fuel
    ⟨{ p with preallocProc := none }, [(.root, .shared)]⟩ (p.rootDest pg) myProc rfl
    (not_not.mp A.fresh)
  generalize (joinRest fp answers fuel (p.rootDest pg) myProc).exec
    ⟨{ p with preallocProc := none }, [(.root, .shared)]⟩ = r at hrest
  cases hrest with
  | gaveUp hr hchanged hwhy =>
    constructor
    · rintro ⟨a, t, hrun, -⟩
      exact absurd (Prod.mk.inj hrun).1 (hr a)
    · intro hfit
      refine absurd ⟨?_, A.quiet, A.signals, A.thread, fun w => ?_⟩ hwhy
      · apply mapRegions_ok
        exact A.mappable
      · obtain ⟨member, space, ⟨proc, heap, w'⟩, -, hinit, hproc⟩ := A.member
        obtain ⟨hagain, -⟩ := initMalloc_alike w hfit hinit
        exact ⟨_, hagain, hproc⟩
  | joined hfit hsome => exact iff_of_true ⟨_, _, rfl, hsome⟩ hfit

end Next

section Run

theorem checkRegion_active : checkRegion page4096 foundedWorld.sc true 0x10180 = .ok () := by
  unfold checkRegion
  rw [if_pos (by decide), check_pos (by decide), ok_bind, check_pos (by decide)]

theorem checkRegion_reserved : checkRegion page4096 foundedWorld.sc false 0x10140 = .ok () := by
  unfold checkRegion
  rw [if_neg (by decide), check_pos (by decide)]

theorem foundedWorld_mappable : Mappable page4096 (fun _ => true) 10 foundedWorld.sc := by
  constructor
  · refine ⟨0x10100, 0x10180, [], ⟨rfl, rfl, rfl⟩, by decide, ?_⟩
    intro a ha
    obtain rfl := List.mem_singleton.mp ha
    exact ⟨rfl, checkRegion_active⟩
  · refine ⟨0x10140, [], ⟨rfl, rfl⟩, by decide, ?_⟩
    intro a ha
    obtain rfl := List.mem_singleton.mp ha
    exact ⟨rfl, checkRegion_reserved⟩

theorem newcomer_admitted {heap : Alloc.Heap}
    (h : MemberAllocates firstPage4096 10 (newcomer [] heap)) :
    Admitted firstPage4096 joinAnswers 10 (newcomer [] heap) where
  malloc := rfl
  root := Option.some_ne_none _
  magic := rfl
  fresh := not_not_intro rfl
  placed := fun h => nomatch h.2
  posted := Option.some_ne_none _
  quiet := rfl
  mappable := foundedWorld_mappable
  signals := rfl
  thread := rfl
  member := h

theorem joiner_allocates_founded : ∃ a t,
    (scJoin firstPage4096 joinAnswers 10).exec ⟨newcomer [] foundedHeap, []⟩ = (.ok (some a), t) ∧
      t.state.preallocProc ≠ none := by
  have hmember : MemberAllocates firstPage4096 10 (newcomer [] foundedHeap) :=
    ⟨Region.granted, foundedWorld.space, _, rfl, rfl, Option.some_ne_none _⟩
  apply (joiner_allocates_iff (newcomer_admitted hmember)).mpr
  exact ⟨0x1000a8, [0x100000], none, ⟨rfl, rfl, rfl⟩, .inl (by decide)⟩

def filledHeap : Alloc.Heap where
  mem := fun a =>
    ([(0x100000, 24), (0x100010, 1), (0x100018, 72), (0x100020, Alloc.headMagic),
      (0x100058, Alloc.footMagic), (0x100060, 72), (0x100068, Alloc.headMagic),
      (0x1000a0, Alloc.footMagic), (0x1000a8, 3928), (0x1000b0, Alloc.headMagic),
      (0x100ff8, Alloc.footMagic)].lookup a).getD 0
  freeList := 0x100000
  lock := false

theorem joiner_dies_filled : MemberAllocates firstPage4096 10 (newcomer [] filledHeap) ∧
    Admitted firstPage4096 joinAnswers 10 (newcomer [] filledHeap) ∧
      ∃ t, (scJoin firstPage4096 joinAnswers 10).exec ⟨newcomer [] filledHeap, []⟩ =
        (.error .todo, t) ∧ t.state.preallocProc = none := by
  have hmember : MemberAllocates firstPage4096 10 (newcomer [] filledHeap) :=
    ⟨Region.granted, foundedWorld.space, _, rfl, rfl, Option.some_ne_none _⟩
  exact ⟨hmember, newcomer_admitted hmember, _, rfl, rfl⟩

end Run
end Subcontexts.Member
