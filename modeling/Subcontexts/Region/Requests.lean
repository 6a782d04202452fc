import Subcontexts.Region.Integrity

/-! Requests for shared memory under a limit of the file system: what a request that fails leaves
behind, and what that does to the requests after it. -/

namespace Subcontexts.Region
variable {pg : PageSize}

structure Shm where
  world : World
  heap : Alloc.Heap

/-- `lookup` is what `lookupScLocal` answers. -/
inductive Request where
  | mmap (lookup : Bool) (addr length prot : Nat) (fd offset : Int)
  | malloc (lookup : Bool) (fuel : Nat) (size : Int)

section Model
variable (fp : FirstPage pg) (limit : Nat)

/-- `ftruncate` fails when the new size is beyond the limit. -/
def answersFor (lookup : Bool) (w : World) (length : Nat) : Answers where
  lookup := lookup
  truncated := u64 (w.sc.tmpfileSize + length) ≤ limit
  buf := true
  replaced := true

def limitedMmap (lookup : Bool) : Except Halt World → Nat → Option Nat × Except Halt World
  | .error e, _ => (none, .error e)
  | .ok w, length => mallocMmap fp (answersFor limit lookup w length) (.ok w) length

/-- The request; `none` is `MAP_FAILED` or `NULL`. -/
def Request.run (s : Shm) : Request → Except Halt (Option Nat × Shm)
  | .mmap lookup addr length prot fd offset => do
    let (retval, w) ←
      scMmap fp (answersFor limit lookup s.world length) s.world addr length prot fd offset
    return (retval, { s with world := w })
  | .malloc lookup fuel size => do
    let (retval, heap, e) ←
      Alloc.scMalloc pg (limitedMmap fp limit lookup) fuel size s.heap (.ok s.world)
    let w ← e
    return (retval, ⟨w, heap⟩)

def Succeeds : Shm → List Request → Prop
  | _, [] => True
  | s, q :: qs => ∃ retval s', q.run fp limit s = .ok (some retval, s') ∧ Succeeds s' qs

end Model

def Request.Sized : Request → Prop
  | .mmap _ _ length .. => length < 2 ^ 64
  | .malloc .. => True

def Room (limit : Nat) (s : Shm) (length : Nat) : Prop :=
  u64 (s.world.sc.tmpfileSize + length) ≤ limit ∧ u64 (s.world.sc.tmpfileSize + length) < 2 ^ 63

def HasNode (fuel : Nat) (s : Shm) (size : Int) : Prop :=
  ∃ cur pPrev, Alloc.search s.heap.mem (Alloc.allocSize size.toNat) (Alloc.splitSize size.toNat) fuel
    s.heap.freeList none = .ok (cur, pPrev) ∧ cur ≠ 0

/-- The request does without `ftruncate`, or there is room for what it asks. -/
def Request.Grantable (pg : PageSize) (limit : Nat) (s : Shm) : Request → Prop
  | .mmap lookup _ length .. => lookup = true → Room limit s length
  | .malloc lookup fuel size =>
    HasNode fuel s size ∨ (lookup = true → Room limit s (Alloc.mmapSize pg size.toNat))

section Spec
variable {fp : FirstPage pg} {limit : Nat} {s s' : Shm} {lookup : Bool}

theorem truncates_answersFor {length : Nat} :
    truncates (answersFor limit lookup s.world length) (u64 (s.world.sc.tmpfileSize + length)) ↔
      Room limit s length := by
  simp [truncates, answersFor, Room]

theorem scMmap_room {addr length prot : Nat} {fd offset : Int} {r : Option Nat} {w' : World}
    (hlength : length < 2 ^ 64)
    (h : scMmap fp (answersFor limit lookup s.world length) s.world addr length prot fd offset =
      .ok (r, w')) :
    (lookup = true → Room limit s length) ∧ (r = none → w' = s.world) ∨
      ¬ (lookup = true → Room limit s length) ∧ r = none ∧ w' ≠ s.world := by
  rcases scMmap_ends h with ⟨hlookup, -, rfl⟩ | ⟨hlookup, hroom, hpos, -, rfl, rfl⟩ |
    ⟨hlookup, hroom, hr⟩
  · have hlookup : lookup = false := hlookup
    exact .inl ⟨fun h => absurd (hlookup.symm.trans h) Bool.false_ne_true, fun _ => rfl⟩
  · rw [truncates_answersFor] at hroom
    -- `tmpfile_size` has been raised before `ftruncate` was asked, and stays so
    refine .inr ⟨fun h => hroom (h hlookup), rfl, fun heq => ?_⟩
    have hsize : u64 (s.world.sc.tmpfileSize + length) = s.world.sc.tmpfileSize :=
      congrArg (fun w => w.sc.tmpfileSize) heq
    unfold u64 at hsize
    omega
  · rw [truncates_answersFor] at hroom
    exact .inl ⟨fun _ => hroom, fun h => absurd h hr⟩

theorem limitedMmap_ok {length : Nat} {w w' : World}
    (h : (limitedMmap fp limit lookup (.ok w) length).2 = .ok w') :
    scMmap fp (answersFor limit lookup w length) w 0 length (protRead ||| protWrite) (-1) 0 =
      .ok ((limitedMmap fp limit lookup (.ok w) length).1, w') := by
  unfold limitedMmap mallocMmap at h ⊢
  dsimp only at h ⊢
  cases hmap : scMmap fp (answersFor limit lookup w length) w 0 length (protRead ||| protWrite)
      (-1) 0 with
  | error e =>
    rw [hmap] at h
    cases h
  | ok result =>
    rw [hmap] at h
    obtain rfl := Except.ok.inj h
    rfl

theorem Request.run_spec {q : Request} {r : Option Nat} (hq : q.Sized)
    (h : q.run fp limit s = .ok (r, s')) :
    q.Grantable pg limit s ∧ (r = none → s' = s) ∨
      ¬ q.Grantable pg limit s ∧ r = none ∧ s' ≠ s := by
  cases q with
  | mmap lookup addr length prot fd offset =>
    obtain ⟨⟨retval, w⟩, hcall, h⟩ := bind_eq_ok.mp h
    obtain ⟨rfl, rfl⟩ := Prod.mk.inj (Except.ok.inj h)
    rcases scMmap_room hq hcall with ⟨hroom, hw⟩ | ⟨hroom, hr, hw⟩
    · exact .inl ⟨hroom, fun hr => by rw [hw hr]⟩
    · exact .inr ⟨hroom, hr, fun heq => hw (congrArg Shm.world heq)⟩
  | malloc lookup fuel size =>
    obtain ⟨⟨retval, heap, e⟩, hcall, h⟩ := bind_eq_ok.mp h
    obtain ⟨w, rfl, h⟩ := bind_eq_ok.mp h
    obtain ⟨rfl, rfl⟩ := Prod.mk.inj (Except.ok.inj h)
    obtain ⟨cur, pPrev, hsearch, hcur | ⟨rfl, hworld, hmap⟩⟩ := scMalloc_ends hcall
    · obtain ⟨hcur, -, hr⟩ := hcur
      exact .inl ⟨.inl ⟨cur, pPrev, hsearch, hcur⟩, fun h => absurd h hr⟩
    have hnode : ¬ HasNode fuel s size := by
      rintro ⟨cur', pPrev', hsearch', hcur'⟩
      rw [hsearch] at hsearch'
      exact hcur' (Prod.mk.inj (Except.ok.inj hsearch')).1.symm
    have hlt : Alloc.mmapSize pg size.toNat < 2 ^ 64 := Nat.mod_lt _ (by decide)
    have hends := scMmap_room hlt (limitedMmap_ok hworld.symm)
    -- without a node the request is as good as its `sc_mmap`
    rcases hmap with ⟨hnone, rfl, rfl⟩ | ⟨hsome, hr⟩
    · rcases hends with ⟨hroom, hw⟩ | ⟨hroom, -, hw⟩
      · exact .inl ⟨.inr hroom, fun _ => by rw [hw hnone]⟩
      · exact .inr ⟨fun hgrant => hgrant.elim hnode hroom, rfl,
          fun heq => hw (congrArg Shm.world heq)⟩
    · rcases hends with ⟨hroom, -⟩ | ⟨-, hnone, -⟩
      · exact .inl ⟨.inr hroom, fun h => absurd h hr⟩
      · exact absurd hnone hsome

end Spec

section Main
variable {fp : FirstPage pg} {limit : Nat} {s s' : Shm} {q : Request} {r : Option Nat}

theorem failed_request_changes_nothing_iff (hq : q.Sized) (h : q.run fp limit s = .ok (r, s')) :
    (r = none → s' = s ∧ ∀ qs, Succeeds fp limit s qs → Succeeds fp limit s' qs) ↔
      q.Grantable pg limit s := by
  rcases Request.run_spec hq h with ⟨hgrant, hsame⟩ | ⟨hgrant, hr, hne⟩
  · refine ⟨fun _ => hgrant, fun _ hr => ?_⟩
    obtain rfl := hsame hr
    exact ⟨rfl, fun _ hqs => hqs⟩
  · exact ⟨fun hsame => absurd (hsame hr).1 hne, fun h => absurd h hgrant⟩

end Main

section Run

/-- A process that has not mapped the subcontext asks for a page. -/
theorem failed_request_changes_nothing_unmapped : ∃ w, Started firstPage4096 w ∧ ∀ heap, ∃ s',
    (Request.mmap false 0 0x1000 3 (-1) 0).run firstPage4096 0x10000 ⟨w, heap⟩ = .ok (none, s') ∧
      s' = ⟨w, heap⟩ := by
  obtain ⟨w, hinit, hfail⟩ : ∃ w, scInit firstPage4096 initAnswers 10 emptyWorld = .ok (some w) ∧
      scMmap firstPage4096 (answersFor 0x10000 false w 0x1000) w 0 0x1000 3 (-1) 0 =
        .ok (none, w) := ⟨_, rfl, rfl⟩
  refine ⟨w, ⟨initAnswers, 10, emptyWorld, initAnswers_promise, hinit⟩, fun heap => ?_⟩
  have hrun : (Request.mmap false 0 0x1000 3 (-1) 0).run firstPage4096 0x10000 ⟨w, heap⟩ =
      .ok (none, ⟨w, heap⟩) := by
    show (scMmap _ _ w _ _ _ _ _ >>= _) = _
    rw [hfail]
    rfl
  have hsized : (Request.mmap false 0 0x1000 3 (-1) 0).Sized := by
    show 0x1000 < 2 ^ 64
    decide
  have hgrant : (Request.mmap false 0 0x1000 3 (-1) 0).Grantable page4096 0x10000 ⟨w, heap⟩ :=
    fun h => absurd h Bool.false_ne_true
  exact ⟨_, hrun, ((failed_request_changes_nothing_iff hsized hrun).mpr hgrant rfl).1⟩

/-- In a file system that lets the file have 64 KiB, a page cannot be had any more once 128 KiB have
been refused. -/
theorem failed_mmap_shuts_out : ∃ w, Started firstPage4096 w ∧ ∀ heap, ∃ s',
    (Request.mmap true 0 0x20000 3 (-1) 0).run firstPage4096 0x10000 ⟨w, heap⟩ = .ok (none, s') ∧
      s'.world.sc.tmpfileSize ≠ w.sc.tmpfileSize ∧
      Succeeds firstPage4096 0x10000 ⟨w, heap⟩ [.mmap true 0 0x1000 3 (-1) 0] ∧
      ¬ Succeeds firstPage4096 0x10000 s' [.mmap true 0 0x1000 3 (-1) 0] := by
  obtain ⟨w, hinit, w₁, hfail, hsize, w₂, hnow, w₃, hlater⟩ :
      ∃ w, scInit firstPage4096 initAnswers 10 emptyWorld = .ok (some w) ∧
        ∃ w₁, scMmap firstPage4096 (answersFor 0x10000 true w 0x20000) w 0 0x20000 3 (-1) 0 =
          .ok (none, w₁) ∧ w₁.sc.tmpfileSize ≠ w.sc.tmpfileSize ∧
        ∃ w₂, scMmap firstPage4096 (answersFor 0x10000 true w 0x1000) w 0 0x1000 3 (-1) 0 =
          .ok (some 0x101000, w₂) ∧
        ∃ w₃, scMmap firstPage4096 (answersFor 0x10000 true w₁ 0x1000) w₁ 0 0x1000 3 (-1) 0 =
          .ok (none, w₃) :=
    ⟨_, rfl, _, rfl, by decide, _, rfl, _, rfl⟩
  refine ⟨w, ⟨initAnswers, 10, emptyWorld, initAnswers_promise, hinit⟩, fun heap =>
    ⟨⟨w₁, heap⟩, ?_, hsize, ⟨0x101000, ⟨w₂, heap⟩, ?_, trivial⟩, ?_⟩⟩
  · show (scMmap _ _ w _ _ _ _ _ >>= _) = _
    rw [hfail]
    rfl
  · show (scMmap _ _ w _ _ _ _ _ >>= _) = _
    rw [hnow]
    rfl
  · rintro ⟨v, s, hrun, -⟩
    have hrun : (scMmap _ _ w₁ _ _ _ _ _ >>= _) = _ := hrun
    rw [hlater] at hrun
    cases (Prod.mk.inj (Except.ok.inj hrun)).1

end Run
end Subcontexts.Region
