import Subcontexts.Member.Model

/-! The ends of `sc_join`: what a process that gives up leaves behind, and which one gets as far as
leaving a struct for the next. -/

namespace Subcontexts.Member
open Region Holding

section Walk
variable {pg : PageSize} {active : Bool} {granted : Addr → Bool} {fuel : Nat} {cur : Addr}

theorem joinLoop_reads : Reads (joinLoop pg active granted fuel cur) := by
  induction fuel generalizing cur with
  | zero => exact .throw _
  | succ fuel ih =>
    rw [joinLoop]
    apply Reads.bind .fetch
    intro p
    apply Reads.bind (.call _)
    intro _
    split
    · exact .pure _
    split
    · apply Reads.bind (.unlock _ _)
      exact fun _ => .pure _
    · apply Reads.bind (.lock _ _ _)
      intro _
      apply Reads.bind (.unlock _ _)
      exact fun _ => ih

theorem mapRegions_reads : Reads (mapRegions pg granted fuel) := by
  unfold mapRegions
  apply Reads.bind .fetch
  intro p
  split
  · exact .throw _
  apply Reads.bind (.lock _ _ _)
  intro _
  split
  · apply Reads.bind (.lock _ _ _)
    intro _
    apply Reads.bind (.lock _ _ _)
    intro _
    apply Reads.bind (.unlock _ _)
    intro _
    apply Reads.bind (.unlock _ _)
    intro _
    apply Reads.bind joinLoop_reads
    intro mapped
    split
    · exact joinLoop_reads
    · exact .pure _
  · exact .throw _

end Walk

section Malloc
variable {pg : PageSize} {fp : FirstPage pg} {answers : Answers} {fuel : Nat}
  {heap heap' : Alloc.Heap} {w w' : World} {r : Option Nat}

def HasFit (h : Alloc.Heap) (size : Nat) : Prop :=
  ∃ a pre next,
    Seg (fun a => Alloc.ptr (Alloc.next h.mem a)) (Alloc.ptr h.freeList) (pre ++ [a]) next ∧
      Alloc.fits h.mem (Alloc.allocSize size) (Alloc.splitSize size) a

theorem search_finds {m : Alloc.Mem} {alloc split cur c : Nat} {slot slot' : Option Nat}
    (h : Alloc.search m alloc split fuel cur slot = .ok (c, slot')) :
    c ≠ 0 ↔ ∃ a pre next,
      Seg (fun a => Alloc.ptr (Alloc.next m a)) (Alloc.ptr cur) (pre ++ [a]) next ∧
        Alloc.fits m alloc split a := by
  induction fuel generalizing cur slot with
  | zero => cases h
  | succ fuel ih =>
    rw [Alloc.search] at h
    by_cases hnull : cur = 0
    · rw [if_pos (.inl hnull)] at h
      obtain ⟨rfl, -⟩ := Prod.mk.inj (Except.ok.inj h)
      refine iff_of_false (not_not_intro hnull) ?_
      rintro ⟨a, pre, next, hseg, -⟩
      rw [Alloc.ptr_eq_none.mpr hnull] at hseg
      cases pre with
      | nil => cases hseg.1
      | cons b pre => cases hseg.1
    have hptr : Alloc.ptr cur = some cur := Alloc.ptr_eq_some.mpr ⟨rfl, hnull⟩
    by_cases hfits : Alloc.fits m alloc split cur
    · rw [if_pos (.inr hfits)] at h
      obtain ⟨rfl, -⟩ := Prod.mk.inj (Except.ok.inj h)
      exact iff_of_true hnull ⟨cur, [], _, ⟨hptr, rfl⟩, hfits⟩
    rw [if_neg (not_or.mpr ⟨hnull, hfits⟩)] at h
    rw [ih h]
    constructor
    · rintro ⟨a, pre, next, hseg, ha⟩
      exact ⟨a, cur :: pre, next, ⟨hptr, hseg⟩, ha⟩
    · rintro ⟨a, pre, next, hseg, ha⟩
      cases pre with
      | nil =>
        obtain rfl := Option.some.inj (hptr.symm.trans hseg.1)
        exact absurd ha hfits
      | cons b pre =>
        obtain rfl := Option.some.inj (hptr.symm.trans hseg.1)
        exact ⟨a, pre, next, hseg.2, ha⟩

theorem mallocMmap_unlisted (len : Nat) :
    (mallocMmap fp { answers with lookup := false } (.ok w) len).1 = none ∧
      ∀ w', (mallocMmap fp { answers with lookup := false } (.ok w) len).2 = .ok w' → w' = w := by
  simp only [mallocMmap]
  cases hmap : scMmap fp { answers with lookup := false } w 0 len (protRead ||| protWrite) (-1) 0 with
  | error e =>
    refine ⟨rfl, fun w' h => ?_⟩
    cases h
  | ok result =>
    obtain ⟨retval, w₁⟩ := result
    rcases scMmap_ends hmap with ⟨-, rfl, rfl⟩ | ⟨hlookup, -⟩ | ⟨hlookup, -⟩
    · exact ⟨rfl, fun w' h => (Except.ok.inj h).symm⟩
    · cases hlookup
    · cases hlookup

theorem initMalloc_unlisted
    (h : initMalloc fp { answers with lookup := false } fuel heap w = .ok (r, heap', w')) :
    w' = w ∧ (r ≠ none ↔ HasFit heap fp.sizeofProcess) := by
  unfold initMalloc at h
  obtain ⟨⟨proc, heap₁, e⟩, hmalloc, h⟩ := bind_eq_ok.mp h
  obtain ⟨w₁, he, h⟩ := bind_eq_ok.mp h
  obtain ⟨rfl, hrest⟩ := Prod.mk.inj (Except.ok.inj h)
  obtain ⟨-, rfl⟩ := Prod.mk.inj hrest
  subst he
  obtain ⟨cur, pPrev, hsearch, ⟨hcur, hw, hproc⟩ | ⟨rfl, hw, hproc⟩⟩ := scMalloc_ends hmalloc
  · exact ⟨Except.ok.inj hw, iff_of_true hproc ((search_finds hsearch).mp hcur)⟩
  · obtain ⟨hnone, hsame⟩ := @mallocMmap_unlisted pg fp answers w
      (Alloc.mmapSize pg (fp.sizeofProcess : Int).toNat)
    refine ⟨hsame w₁ hw.symm, iff_of_false ?_ fun hfit => (search_finds hsearch).mpr hfit rfl⟩
    rcases hproc with ⟨-, hnull, -⟩ | ⟨hsome, -⟩
    · exact not_not_intro hnull
    · exact absurd hnone hsome

theorem scMalloc_alike {σ τ : Type} {mmap : σ → Nat → Option Nat × σ}
    {mmap' : τ → Nat → Option Nat × τ} {size : Int} {e e₁ : σ} {cur : Nat} {pPrev : Option Nat} (e' : τ)
    (hsearch : Alloc.search heap.mem (Alloc.allocSize size.toNat) (Alloc.splitSize size.toNat) fuel
      heap.freeList none = .ok (cur, pPrev)) (hcur : cur ≠ 0)
    (h : Alloc.scMalloc pg mmap fuel size heap e = .ok (r, heap', e₁)) :
    Alloc.scMalloc pg mmap' fuel size heap e' = .ok (r, heap', e') := by
  unfold Alloc.scMalloc at h ⊢
  obtain ⟨_, hsize, h⟩ := bind_eq_ok.mp h
  rw [hsize, ok_bind]
  dsimp only at h ⊢
  split at h
  · cases h
  rename_i hlock
  rw [if_neg hlock]
  obtain ⟨_, halloc, h⟩ := bind_eq_ok.mp h
  rw [hsearch, ok_bind] at h
  dsimp only at h
  rw [if_neg hcur] at h
  obtain ⟨⟨retval, h₁⟩, hcarve, h⟩ := bind_eq_ok.mp h
  obtain ⟨rfl, hrest⟩ := Prod.mk.inj (Except.ok.inj h)
  obtain ⟨rfl, -⟩ := Prod.mk.inj hrest
  rw [halloc, ok_bind, hsearch, ok_bind]
  dsimp only
  rw [if_neg hcur, hcarve]
  rfl

theorem initMalloc_alike {answers' : Answers} (w₂ : World) (hfit : HasFit heap fp.sizeofProcess)
    (h : initMalloc fp answers fuel heap w = .ok (r, heap', w')) :
    initMalloc fp answers' fuel heap w₂ = .ok (r, heap', w₂) ∧ r ≠ none := by
  unfold initMalloc at h ⊢
  obtain ⟨⟨proc, heap₁, e⟩, hmalloc, h⟩ := bind_eq_ok.mp h
  obtain ⟨w₁, -, h⟩ := bind_eq_ok.mp h
  obtain ⟨rfl, hrest⟩ := Prod.mk.inj (Except.ok.inj h)
  obtain ⟨rfl, -⟩ := Prod.mk.inj hrest
  obtain ⟨cur, pPrev, hsearch, hends⟩ := scMalloc_ends hmalloc
  have hcur : cur ≠ 0 := (search_finds hsearch).mpr hfit
  constructor
  · have hagain : Alloc.scMalloc pg (mallocMmap fp answers') fuel fp.sizeofProcess heap (.ok w₂) =
        .ok (proc, heap₁, .ok w₂) := scMalloc_alike _ hsearch hcur hmalloc
    rw [hagain]
    rfl
  · rcases hends with ⟨-, -, hproc⟩ | ⟨hnull, -⟩
    · exact hproc
    · exact absurd hnull hcur

end Malloc

section Setup
variable {pg : PageSize} {fp : FirstPage pg} {answers : Answers} {fuel : Nat} {p : Process}
  {held : List (Lock × Mode)} {mySc : Addr}

theorem lookupScLocal_exec (hfree : Free held .localList .shared) :
    (lookupScLocal mySc).exec ⟨p, held⟩ =
      (.ok (p.localList.find? fun retval => retval.sc = mySc), ⟨p, held⟩) := by
  unfold lookupScLocal
  rw [exec_bind_ok (exec_lock hfree), exec_fetch_bind, exec_unlock_bind, List.erase_cons_head]
  rfl

theorem scMalloc_exec (hfree : Free held .localList .shared)
    (hunlisted : p.localList.find? (fun retval => retval.sc = mySc) = none) :
    (scMalloc fp answers fuel mySc).exec ⟨p, held⟩ =
      match initMalloc fp { answers with lookup := false } fuel p.heap p.world with
      | .error e => (.error e, ⟨p, held⟩)
      | .ok (proc, heap, w) => (.ok proc, ⟨{ p with heap := heap, world := w }, held⟩) := by
  unfold scMalloc
  rw [exec_bind_ok (lookupScLocal_exec hfree), hunlisted, exec_fetch_bind]
  dsimp only [Option.isSome_none]
  cases initMalloc fp { answers with lookup := false } fuel p.heap p.world with
  | error e => rfl
  | ok result => rfl

def Unhindered (held : List (Lock × Mode)) : Prop :=
  Free held .localList .exclusive ∧ Free held .root .exclusive

inductive SetupEnd (fp : FirstPage pg) (answers : Answers) (fuel : Nat) (p : Process)
    (held : List (Lock × Mode)) : Except Halt Int × Thread Process Lock → Prop where
  | failed {e u} (hposted : u.state.preallocProc = none)
    (hwhy : Unhindered held → ∀ result,
      initMalloc fp { answers with lookup := false } fuel p.heap p.world = .ok result →
        result.1 = none) : SetupEnd fp answers fuel p held (.error e, u)
  | posted {q : Process} (hfit : HasFit p.heap fp.sizeofProcess) (hposted : q.preallocProc ≠ none)
    (hworld : q.world = p.world) : SetupEnd fp answers fuel p held (.ok 0, ⟨q, held⟩)

theorem scInitSetupProcListEntry_ends
    (hunlisted : p.localList.find? (fun retval => retval.sc = mySc) = none)
    (hposted : p.preallocProc = none) :
    SetupEnd fp answers fuel p held
      ((scInitSetupProcListEntry fp answers fuel mySc).exec ⟨p, held⟩) := by
  unfold scInitSetupProcListEntry
  by_cases hfree : Free held .localList .shared
  · have hmalloc := @scMalloc_exec pg fp answers fuel p held mySc hfree hunlisted
    cases hinit : initMalloc fp { answers with lookup := false } fuel p.heap p.world with
    | error e =>
      rw [hinit] at hmalloc
      rw [exec_bind_error hmalloc]
      exact .failed hposted fun _ result h => nomatch hinit.symm.trans h
    | ok result =>
      obtain ⟨proc, heap, w⟩ := result
      rw [hinit] at hmalloc
      rw [exec_bind_ok hmalloc]
      obtain ⟨rfl, hfit⟩ := initMalloc_unlisted hinit
      cases proc with
      | none =>
        apply SetupEnd.failed hposted
        intro _ result h
        rw [← Except.ok.inj (hinit.symm.trans h)]
      | some nextProc =>
        rw [exec_fetch_bind, exec_store_bind]
        generalize hq : Process.setProc _ nextProc _ = q
        have hqposted : q.preallocProc = none := hq ▸ hposted
        have hqworld : q.world = p.world := hq ▸ rfl
        by_cases hroot : Free held .root .exclusive
        · rw [exec_bind_ok (exec_lock hroot), exec_fetch_bind, check_pos hqposted,
            exec_call_ok_bind, exec_store_bind, exec_unlock_bind, List.erase_cons_head, exec_pure]
          exact .posted (hfit.mp (Option.some_ne_none _)) (Option.some_ne_none _) hqworld
        · rw [exec_bind_error (exec_lock_stuck hroot)]
          exact .failed hqposted fun hunhindered => absurd hunhindered.2 hroot
  · have hstuck : (scMalloc fp answers fuel mySc).exec ⟨p, held⟩ =
        (.error .blocked, ⟨p, held⟩) :=
      exec_bind_error (exec_bind_error (exec_lock_stuck hfree))
    rw [exec_bind_error hstuck]
    exact .failed hposted fun hunhindered => absurd (hunhindered.1 .exclusive) hfree

inductive RegisterEnd (p : Process) (held : List (Lock × Mode)) :
    Except Halt Nat × Thread Process Lock → Prop where
  | failed {e u} (hposted : u.state.preallocProc = p.preallocProc)
    (hwhy : Unhindered held → p.pendingReservation ≠ none) : RegisterEnd p held (.error e, u)
  | counted {n} {q : Process} (hposted : q.preallocProc = p.preallocProc)
    (hcount : q.world.sc.procCount = p.world.sc.procCount + 1) (hheap : q.heap = p.heap)
    (hlocal : q.localList = p.localList) : RegisterEnd p held (.ok n, ⟨q, held⟩)

theorem register_ends {myProc : Addr} :
    RegisterEnd p held ((register myProc).exec ⟨p, held⟩) := by
  unfold register
  rw [exec_fetch_bind, exec_store_bind]
  by_cases hroot : Free held .root .exclusive
  · rw [exec_bind_ok (exec_lock hroot), exec_fetch_bind]
    dsimp only
    rw [exec_store_bind]
    split
    · rename_i hpending
      exact .failed rfl fun _ => hpending
    · rw [exec_store_bind, exec_unlock_bind, List.erase_cons_head, exec_pure]
      exact .counted rfl rfl rfl rfl
  · rw [exec_bind_error (exec_lock_stuck hroot)]
    exact .failed rfl fun hunhindered => absurd hunhindered.2 hroot

end Setup

section Rest
variable {pg : PageSize} {fp : FirstPage pg} {answers : JoinAnswers} {fuel : Nat}
  {t : Thread Process Lock} {rootDest myProc : Addr}

/-- Everything that `sc_join` needs once it has claimed its struct. -/
structure Ready (fp : FirstPage pg) (answers : JoinAnswers) (fuel : Nat) (t : Thread Process Lock) :
    Prop where
  mapped : (mapRegions pg answers.region fuel).exec t = (.ok true, ⟨t.state, []⟩)
  quiet : t.state.pendingReservation = none
  signals : answers.signals = true
  thread : answers.thread = true
  malloc : ∀ w, ∃ result,
    initMalloc fp { answers.mmap with lookup := false } fuel t.state.heap w = .ok result ∧
      result.1 ≠ none

inductive JoinEnd (fp : FirstPage pg) (answers : JoinAnswers) (fuel : Nat)
    (t : Thread Process Lock) : Except Halt (Option Addr) × Thread Process Lock → Prop where
  | gaveUp {r u} (hr : ∀ a, r ≠ .ok (some a))
    (hchanged : u.state.preallocProc = none ∨
      u.state.world.sc.procCount = t.state.world.sc.procCount + 1)
    (hwhy : ¬ Ready fp answers fuel t) : JoinEnd fp answers fuel t (r, u)
  | joined {a u} (hfit : HasFit t.state.heap fp.sizeofProcess)
    (hposted : u.state.preallocProc ≠ none) : JoinEnd fp answers fuel t (.ok (some a), u)

theorem unhindered_nil : Unhindered [] := ⟨free_nil _ _, free_nil _ _⟩

theorem Ready.held {held : List (Lock × Mode)} (h : Ready fp answers fuel t)
    (hmap : (mapRegions pg answers.region fuel).exec t = (.ok true, ⟨t.state, held⟩)) :
    held = [] := congrArg (fun r => r.2.held) (hmap.symm.trans h.mapped)

theorem joinRest_ends (hposted : t.state.preallocProc = none)
    (hunlisted : t.state.localList.find? (fun retval => retval.sc = rootDest) = none) :
    JoinEnd fp answers fuel t ((joinRest fp answers fuel rootDest myProc).exec t) := by
  unfold joinRest
  rcases hmap : (mapRegions pg answers.region fuel).exec t with ⟨mapped, u⟩
  have hu : u.state = t.state := by
    have hreads := @mapRegions_reads pg answers.region fuel t
    rwa [hmap] at hreads
  obtain ⟨p, held⟩ := u
  obtain rfl : p = t.state := hu
  cases mapped with
  | error e =>
    rw [exec_bind_error hmap]
    exact .gaveUp nofun (.inl hposted) fun hready => nomatch hmap.symm.trans hready.mapped
  | ok mapped =>
    rw [exec_bind_ok hmap]
    cases mapped with
    | false =>
      exact .gaveUp nofun (.inl hposted) fun hready => nomatch hmap.symm.trans hready.mapped
    | true =>
      rw [if_neg (by decide)]
      have hregister := @register_ends t.state held myProc
      generalize hrun : (register myProc).exec ⟨t.state, held⟩ = r at hregister
      cases hregister with
      | failed hsame hwhy =>
        rw [exec_bind_error hrun]
        refine .gaveUp nofun (.inl (hsame.trans hposted)) fun hready => ?_
        obtain rfl := hready.held hmap
        exact hwhy unhindered_nil hready.quiet
      | @counted flushPoint q hsame hcount hheap hlocal =>
        rw [exec_bind_ok hrun]
        cases hsignals : answers.signals with
        | false =>
          refine .gaveUp nofun (.inr hcount) fun hready => ?_
          cases hsignals.symm.trans hready.signals
        | true =>
          rw [if_neg (by decide)]
          have hsetup := @scInitSetupProcListEntry_ends pg fp answers.mmap fuel q held rootDest
            (hlocal ▸ hunlisted) (hsame.trans hposted)
          generalize hrun' : (scInitSetupProcListEntry fp answers.mmap fuel rootDest).exec
            ⟨q, held⟩ = r' at hsetup
          cases hsetup with
          | failed hnone hwhy =>
            rw [exec_bind_error hrun']
            refine .gaveUp nofun (.inl hnone) fun hready => ?_
            obtain rfl := hready.held hmap
            obtain ⟨result, hinit, hresult⟩ := hready.malloc q.world
            rw [← hheap] at hinit
            exact hresult (hwhy unhindered_nil result hinit)
          | @posted q' hfit hsome hworld =>
            rw [exec_bind_ok hrun']
            have hcount' : q'.world.sc.procCount = t.state.world.sc.procCount + 1 := by
              rw [hworld, hcount]
            rw [hheap] at hfit
            rw [if_neg (not_not_intro rfl)]
            cases hthread : answers.thread with
            | false =>
              refine .gaveUp nofun (.inr hcount') fun hready => ?_
              cases hthread.symm.trans hready.thread
            | true =>
              by_cases hfree : Free held .localList .exclusive
              · rw [if_neg (by decide), exec_bind_ok (exec_lock hfree), exec_fetch_bind,
                  exec_store_bind, exec_unlock_bind, exec_pure]
                exact .joined hfit hsome
              · rw [if_neg (by decide), exec_bind_error (exec_lock_stuck hfree)]
                refine .gaveUp nofun (.inr hcount') fun hready => ?_
                obtain rfl := hready.held hmap
                exact hfree (free_nil _ _)

end Rest

section Claim
variable {pg : PageSize} {fp : FirstPage pg} {answers : JoinAnswers} {fuel : Nat} {p : Process}
  {myProc root : Addr}

def AlreadyMapped (pg : PageSize) (p : Process) : Prop :=
  p.localList.find? (fun retval => retval.sc = p.rootDest pg) ≠ none

instance (pg : PageSize) (p : Process) : Decidable (AlreadyMapped pg p) :=
  inferInstanceAs (Decidable (_ ≠ none))

/-- The first page is not where it belongs, and cannot be put there. -/
def Misplaced (pg : PageSize) (answers : JoinAnswers) (p : Process) : Prop :=
  answers.root ≠ some (p.rootDest pg) ∧ answers.relocated = false

instance (pg : PageSize) (answers : JoinAnswers) (p : Process) :
    Decidable (Misplaced pg answers p) := inferInstanceAs (Decidable (_ ∧ _))

theorem claimProc_exec : claimProc.exec ⟨p, []⟩ =
    match p.preallocProc with
    | none => (.ok none, ⟨p, []⟩)
    | some myProc => (.ok (some myProc), ⟨{ p with preallocProc := none }, [(.root, .shared)]⟩) := by
  unfold claimProc
  rw [exec_bind_ok (exec_lock (free_nil _ _)), exec_fetch_bind]
  cases hposted : p.preallocProc with
  | none => simp only [exec_unlock_bind, List.erase_cons_head, exec_pure]
  | some myProc =>
    simp only [exec_store_bind]
    rw [exec_bind_ok exec_downgrade, List.erase_cons_head, exec_pure]

theorem scJoin_exec (hmalloc : answers.malloc = true) (hroot : answers.root = some root)
    (hmagic : p.magic = true) : (scJoin fp answers fuel).exec ⟨p, []⟩ =
      if AlreadyMapped pg p then (.ok none, ⟨p, [(.root, .shared)]⟩)
      else if Misplaced pg answers p then (.ok none, ⟨p, []⟩)
      else
        match p.preallocProc with
        | none => (.ok none, ⟨p, []⟩)
        | some myProc => (joinRest fp answers fuel (p.rootDest pg) myProc).exec
            ⟨{ p with preallocProc := none }, [(.root, .shared)]⟩ := by
  have hmagic' : ¬ (!p.magic) = true := by
    rw [hmagic]
    decide
  have hlookup : (lookupScLocal (p.rootDest pg)).exec ⟨p, [(.root, .shared)]⟩ =
      (.ok (p.localList.find? fun retval => retval.sc = p.rootDest pg),
        ⟨p, [(.root, .shared)]⟩) := lookupScLocal_exec (by decide)
  unfold scJoin
  rw [hmalloc, if_neg (by decide), hroot]
  dsimp only
  rw [exec_fetch_bind]
  dsimp only
  rw [if_neg hmagic', exec_bind_ok (exec_lock (free_nil _ _)), exec_fetch_bind,
    exec_bind_ok hlookup]
  dsimp only
  by_cases hmapped : AlreadyMapped pg p
  · have hmapped' := hmapped
    unfold AlreadyMapped at hmapped'
    rw [if_pos hmapped, if_pos hmapped', exec_pure]
  have hmapped' := hmapped
  unfold AlreadyMapped at hmapped'
  rw [if_neg hmapped, if_neg hmapped']
  by_cases hplaced : Misplaced pg answers p
  · have hplaced' : p.rootDest pg ≠ root ∧ answers.relocated = false :=
      ⟨fun h => hplaced.1 (hroot.trans (congrArg some h.symm)), hplaced.2⟩
    rw [if_pos hplaced, if_pos hplaced', exec_unlock_bind, List.erase_cons_head, exec_pure]
  · have hplaced' : ¬ (p.rootDest pg ≠ root ∧ answers.relocated = false) := fun h =>
      hplaced ⟨fun hr => h.1 (Option.some.inj (hr.symm.trans hroot)), h.2⟩
    rw [if_neg hplaced, if_neg hplaced', exec_unlock_bind, List.erase_cons_head]
    have hclaim := @claimProc_exec p
    cases hposted : p.preallocProc with
    | none =>
      rw [hposted] at hclaim
      rw [exec_bind_ok hclaim, exec_pure]
    | some myProc =>
      rw [hposted] at hclaim
      rw [exec_bind_ok hclaim]

theorem scJoin_early (h : answers.malloc = false ∨ answers.root = none ∨ p.magic = false) :
    (scJoin fp answers fuel).exec ⟨p, []⟩ = (.ok none, ⟨p, []⟩) := by
  unfold scJoin
  cases hmalloc : answers.malloc with
  | false => rfl
  | true =>
    rw [if_neg (by decide)]
    cases hroot : answers.root with
    | none => rfl
    | some root =>
      dsimp only
      rw [exec_fetch_bind]
      dsimp only
      rcases h with h | h | h
      · cases hmalloc.symm.trans h
      · cases hroot.symm.trans h
      · rw [h, if_pos (by decide), exec_pure]

end Claim

section Failure
variable {pg : PageSize} {fp : FirstPage pg} {answers : JoinAnswers} {fuel : Nat} {p : Process}
  {r : Except Halt (Option Addr)} {t : Thread Process Lock}

/-- `sc_join` returns `NULL`, or ends the process in a `TODO()`. -/
def GivesUp (r : Except Halt (Option Addr)) : Prop := r = .ok none ∨ r = .error .todo

/-- What a failed join is to leave: no shared lock of its own, and the group as it was. -/
structure Clean (p : Process) (t : Thread Process Lock) : Prop where
  held : ∀ y ∈ t.held, y.1 ≠ .root ∧ ∀ a, y.1 ≠ .region a
  posted : t.state.preallocProc = p.preallocProc
  count : t.state.world.sc.procCount = p.world.sc.procCount
  list : t.state.procList = p.procList

def Harmless (pg : PageSize) (answers : JoinAnswers) (p : Process) : Prop :=
  answers.malloc = false ∨ answers.root = none ∨ p.magic = false ∨
    ¬ AlreadyMapped pg p ∧ (Misplaced pg answers p ∨ p.preallocProc = none)

theorem clean_self : Clean p ⟨p, []⟩ := ⟨nofun, rfl, rfl, rfl⟩

theorem failed_join_clean_iff (hrun : (scJoin fp answers fuel).exec ⟨p, []⟩ = (r, t))
    (hr : GivesUp r) : Clean p t ↔ Harmless pg answers p := by
  by_cases hearly : answers.malloc = false ∨ answers.root = none ∨ p.magic = false
  · rw [scJoin_early hearly] at hrun
    obtain rfl := (Prod.mk.inj hrun).2
    apply iff_of_true clean_self
    rcases hearly with h | h | h
    · exact .inl h
    · exact .inr (.inl h)
    · exact .inr (.inr (.inl h))
  obtain ⟨hmalloc, hroot, hmagic⟩ : ¬ answers.malloc = false ∧ ¬ answers.root = none ∧
      ¬ p.magic = false := by
    rwa [not_or, not_or] at hearly
  obtain ⟨root, hroot'⟩ := Option.ne_none_iff_exists'.mp hroot
  unfold Harmless
  rw [or_iff_right hmalloc, or_iff_right hroot, or_iff_right hmagic]
  rw [scJoin_exec (Bool.of_not_eq_false hmalloc) hroot' (Bool.of_not_eq_false hmagic)] at hrun
  split at hrun
  · -- the shared root lock is not given back
    rename_i hmapped
    obtain rfl := (Prod.mk.inj hrun).2
    apply iff_of_false
    · exact fun hclean => (hclean.held _ (List.mem_cons_self ..)).1 rfl
    · exact fun h => h.1 hmapped
  rename_i hmapped
  rw [and_iff_right hmapped]
  split at hrun
  · rename_i hplaced
    obtain rfl := (Prod.mk.inj hrun).2
    exact iff_of_true clean_self (.inl hplaced)
  rename_i hplaced
  rw [or_iff_right hplaced]
  split at hrun
  · rename_i hposted
    obtain rfl := (Prod.mk.inj hrun).2
    exact iff_of_true clean_self hposted
  · -- the struct that it has claimed is lost to the next process, or the count is wrong
    rename_i myProc hposted
    have hrest := @joinRest_ends pg fp answers fuel
      ⟨{ p with preallocProc := none }, [(.root, .shared)]⟩ (p.rootDest pg) myProc rfl
      (not_not.mp hmapped)
    rw [hrun] at hrest
    apply iff_of_false _ (hposted ▸ Option.some_ne_none _)
    intro hclean
    cases hrest with
    | gaveUp hfailed hchanged =>
      rcases hchanged with hnone | hcount
      · rw [hclean.posted, hposted] at hnone
        cases hnone
      · rw [hclean.count] at hcount
        exact absurd hcount (Nat.ne_of_lt (Nat.lt_succ_self _))
    | joined hfit hposted =>
      rcases hr with h | h
      · cases h
      · cases h

end Failure

section Run

def foundedHeap : Alloc.Heap where
  mem := fun a =>
    ([(0x100000, 24), (0x100008, 0x1000a8), (0x100010, 1), (0x100018, 72),
      (0x100020, Alloc.headMagic), (0x100058, Alloc.footMagic), (0x100060, 72),
      (0x100068, Alloc.headMagic), (0x1000a0, Alloc.footMagic), (0x1000a8, 3928)].lookup a).getD 0
  freeList := 0x100000
  lock := false

def foundedWorld : World where
  sc :=
    { lock := false
      activeRegions := some 0x10100
      activeRegionsTail := some 0x10180
      reservedRegions := some 0x10140
      freeStructs := some 0x101c0
      tmpfileSize := 0x2000
      procCount := 1
      cleanupLog := false
      mem := fun a =>
        ([(0x10100, ⟨⟨0x10000, 0x1000, protRead ||| protWrite, 0⟩, some 0x10180, true⟩),
          (0x10140, ⟨⟨0x101000, 0xff000, protNone, noOffset⟩, none, false⟩),
          (0x10180, ⟨⟨0x100000, 0x1000, protRead ||| protWrite, 0x1000⟩, none, false⟩)].lookup
            a).getD ⟨⟨0, 0, 0, 0⟩, some (a + 0x40), false⟩ }
  file := fun _ => 0
  fileSize := 0x2000
  space := [⟨0x100000, 0x100000, .noAccess⟩, ⟨0x10000, 0x1000, .file (protRead ||| protWrite) 0⟩]

def newcomer (localList : List ScLocal) (heap : Alloc.Heap) : Process where
  world := { foundedWorld with space := [] }
  magic := true
  preallocProc := some 0x100070
  procList := some 0x100028
  procs := Function.update (fun _ => ⟨none, .prealloc, 0⟩) 0x100028 ⟨none, .alive, 1⟩
  pendingReservation := none
  lastSeqNum := 0
  heap := heap
  pid := 2
  localList := localList
  prevVaddr := 0

def joinAnswers : JoinAnswers :=
  ⟨true, some 0x200000, true, fun _ => true, true, Region.granted, true⟩

/-- The first page cannot be moved. -/
theorem failed_join_clean_misplaced : ∃ t,
    (scJoin firstPage4096 { joinAnswers with relocated := false } 10).exec
      ⟨newcomer [] foundedHeap, []⟩ = (.ok none, t) ∧ Clean (newcomer [] foundedHeap) t := by
  obtain ⟨t, hrun⟩ : ∃ t, (scJoin firstPage4096 { joinAnswers with relocated := false } 10).exec
      ⟨newcomer [] foundedHeap, []⟩ = (.ok none, t) := ⟨_, rfl⟩
  refine ⟨t, hrun, (failed_join_clean_iff hrun (.inl rfl)).mpr ?_⟩
  exact .inr (.inr (.inr ⟨not_not_intro rfl, .inl (by decide)⟩))

/-- A second join of the same process keeps the root lock; a join that cannot map a region takes the
struct of the next process with it. -/
theorem failed_join_leaves_traces :
    (∃ t, (scJoin firstPage4096 joinAnswers 10).exec ⟨newcomer [⟨0x10000, 0⟩] foundedHeap, []⟩ =
      (.ok none, t) ∧ (.root, .shared) ∈ t.held) ∧
    ∃ t, (scJoin firstPage4096 { joinAnswers with region := fun _ => false } 10).exec
      ⟨newcomer [] foundedHeap, []⟩ = (.ok none, t) ∧ t.state.preallocProc = none :=
  ⟨⟨_, rfl, by decide⟩, _, rfl, rfl⟩

end Run
end Subcontexts.Member
