import Subcontexts.Alloc.Model
import Subcontexts.Region.Files
import Mathlib.Data.List.Range

/-! `sc_init`: the root struct, the two first regions, the chain of free structs, and the first two
calls of `sc_malloc`, which go through to `sc_mmap` while the allocator has nothing. -/

namespace Subcontexts.Region
variable {pg : PageSize}

/-- What the system calls of `sc_init` answer, and the first contents of the allocator's memory. -/
structure InitAnswers where
  fstat : Bool
  malloc : Bool
  truncated : Bool
  mapped : Bool
  area : Option Nat
  first : Answers
  second : Answers
  thread : Bool
  heap : Alloc.Mem

def reservedLen : Nat := 2 ^ 20

section Model
variable (fp : FirstPage pg)

def chainStep (s : Sc) (i : Nat) : Sc := s.setNext (fp.regions (i - 1)) (some (fp.regions i))

def chain (n : Nat) (s : Sc) : Sc := (List.range' 3 n).foldl (chainStep fp) s

def initRegions (area : Nat) (mem : Addr → ScRegion) : Sc :=
  let s : Sc := ⟨false, some (fp.regions 0), some (fp.regions 0), some (fp.regions 1), none,
    pg.bytes, 0, false, mem⟩
  let s := s.setRegion (fp.regions 0) ⟨⟨fp.base, pg.bytes, protRead ||| protWrite, 0⟩, none, true⟩
  s.setRegion (fp.regions 1) ⟨⟨area, reservedLen, protNone, noOffset⟩, none, false⟩

def initRoot (area : Nat) (mem : Addr → ScRegion) : Sc :=
  let s := initRegions fp area mem
  if fp.regionsCount = 2 then s
  else (chain fp (fp.regionsCount - 3) { s with freeStructs := some (fp.regions 2) }).setNext
    (fp.regions (fp.regionsCount - 1)) none

/-- The `sc_mmap` that `sc_malloc` calls; where it does not return, the state says so. -/
def mallocMmap (answers : Answers) :
    Except Halt World → Nat → Option Nat × Except Halt World
  | .error e, _ => (none, .error e)
  | .ok w, length =>
    match scMmap fp answers w 0 length (protRead ||| protWrite) (-1) 0 with
    | .ok (retval, w) => (retval, .ok w)
    | .error e => (none, .error e)

def initMalloc (answers : Answers) (fuel : Nat) (heap : Alloc.Heap) (w : World) :
    Except Halt (Option Nat × Alloc.Heap × World) := do
  let (proc, heap, e) ←
    Alloc.scMalloc pg (mallocMmap fp answers) fuel fp.sizeofProcess heap (.ok w)
  let w ← e
  return (proc, heap, w)

def initWorld (area : Nat) (w : World) : World :=
  { w.ftruncate pg.bytes with
    sc := initRoot fp area w.sc.mem
    space := ⟨area, reservedLen, .noAccess⟩ ::
      ⟨fp.base, pg.bytes, .file (protRead ||| protWrite) 0⟩ :: w.space }

/-- `sc_init`; `none` where it returns `NULL`. -/
def scInit (answers : InitAnswers) (fuel : Nat) (w : World) : Except Halt (Option World) := do
  if !answers.fstat then return none
  if w.fileSize ≠ 0 then return none
  if !answers.malloc then return none
  if !answers.truncated then return none
  if !answers.mapped then return none
  check (2 ≤ fp.regionsCount)
  match answers.area with
  | none => .error .assertion
  | some area => do
    let (firstProc, heap, w) ← initMalloc fp answers.first fuel ⟨answers.heap, 0, false⟩
      (initWorld fp area w)
    check (firstProc ≠ none)
    let w ← w.lockRoot
    let w := { w with sc := { w.sc with procCount := 1, lock := false } }
    let (nextProc, _, w) ← initMalloc fp answers.second fuel heap w
    haltIf .todo (nextProc = none)
    if !answers.thread then return none
    return some w

end Model

section Chain
variable {fp : FirstPage pg} {s : Sc} {n i : Nat} {a : Addr}

theorem chain_succ : chain fp (n + 1) s =
    (chain fp n s).setNext (fp.regions (n + 2)) (some (fp.regions (n + 3))) := by
  unfold chain
  rw [List.range'_concat, List.foldl_append, Nat.one_mul, Nat.add_comm 3 n]
  rfl

theorem chain_eq : chain fp n s = { s with mem := (chain fp n s).mem } := by
  induction n with
  | zero => rfl
  | succ n ih =>
    rw [chain_succ, ih]
    rfl

theorem extent_chain : ((chain fp n s).mem a).toExtent = (s.mem a).toExtent := by
  induction n with
  | zero => rfl
  | succ n ih => rw [chain_succ, extent_setNext, ih]

theorem next_chain_of_ne (h : ∀ i, 2 ≤ i → i < n + 2 → a ≠ fp.regions i) :
    ((chain fp n s).mem a).next = (s.mem a).next := by
  induction n with
  | zero => rfl
  | succ n ih =>
    rw [chain_succ, mem_setNext_of_ne _ (h (n + 2) (by omega) (by omega))]
    exact ih fun i hi hlt => h i hi (by omega)

theorem next_chain (hi : 2 ≤ i) (hlt : i < n + 2) :
    ((chain fp n s).mem (fp.regions i)).next = some (fp.regions (i + 1)) := by
  induction n with
  | zero => omega
  | succ n ih =>
    rw [chain_succ]
    by_cases h : i = n + 2
    · subst h
      rw [next_setNext_self]
    · have hne : fp.regions i ≠ fp.regions (n + 2) := fun h' => h (fp.regions_inj h')
      rw [mem_setNext_of_ne _ hne]
      exact ih (by omega)

theorem seg_regions {next : Addr → Option Addr} (start : Nat)
    (hnext : ∀ i, start ≤ i → i < start + n → next (fp.regions i) = some (fp.regions (i + 1)))
    (hlast : next (fp.regions (start + n)) = none) :
    Seg next (some (fp.regions start)) ((List.range' start (n + 1)).map fp.regions) none := by
  induction n generalizing start with
  | zero => exact ⟨rfl, hlast⟩
  | succ n ih =>
    refine ⟨rfl, ?_⟩
    rw [hnext start (Nat.le_refl _) (by omega)]
    refine ih (start + 1) (fun i hi hlt => hnext i (by omega) (by omega)) ?_
    rw [Nat.add_right_comm]
    exact hlast

end Chain

section Root
variable {fp : FirstPage pg} {area : Nat} {mem : Addr → ScRegion}

theorem initRoot_eq : initRoot fp area mem =
    (chain fp (fp.regionsCount - 3) { initRegions fp area mem with
      freeStructs := some (fp.regions 2) }).setNext (fp.regions (fp.regionsCount - 1)) none := by
  have h := fp.three_le_regionsCount
  exact if_neg (by omega)

def freeRegions (fp : FirstPage pg) : List Addr :=
  (List.range' 2 (fp.regionsCount - 2)).map fp.regions

theorem mem_freeRegions {a : Addr} (h : a ∈ freeRegions fp) :
    ∃ i, 2 ≤ i ∧ i < fp.regionsCount ∧ a = fp.regions i := by
  obtain ⟨i, hi, rfl⟩ := List.mem_map.mp h
  rw [List.mem_range'_1] at hi
  exact ⟨i, hi.1, by omega, rfl⟩

theorem next_initRoot_of_lt {i : Nat} (hi : i < 2) :
    ((initRoot fp area mem).mem (fp.regions i)).next = none := by
  have h := fp.three_le_regionsCount
  have hne : ∀ j, 2 ≤ j → fp.regions i ≠ fp.regions j := fun j hj h => by
    have := fp.regions_inj h
    omega
  rw [initRoot_eq, mem_setNext_of_ne _ (hne _ (by omega)), next_chain_of_ne fun j hj _ => hne j hj]
  show ((initRegions fp area mem).mem (fp.regions i)).next = none
  unfold initRegions
  by_cases h1 : i = 1
  · subst h1
    rw [mem_setRegion_self]
  · obtain rfl : i = 0 := by omega
    have h01 : fp.regions 0 ≠ fp.regions 1 := fun h => by
      have := fp.regions_inj h
      omega
    rw [mem_setRegion_of_ne _ h01, mem_setRegion_self]

theorem initRoot_fields : initRoot fp area mem = { initRegions fp area mem with
    freeStructs := some (fp.regions 2), mem := (initRoot fp area mem).mem } := by
  rw [initRoot_eq, chain_eq]
  rfl

theorem tmpfileSize_initRoot : (initRoot fp area mem).tmpfileSize = pg.bytes := by
  rw [initRoot_fields]
  rfl

theorem reservedRegions_initRoot :
    (initRoot fp area mem).reservedRegions = some (fp.regions 1) := by
  rw [initRoot_fields]
  rfl

theorem initRoot_lists : Lists fp (initRoot fp area mem) [fp.regions 0] (freeRegions fp) := by
  have h := fp.three_le_regionsCount
  have hapart : ∀ i, i < 2 → fp.regions i ∉ freeRegions fp := by
    intro i hi hm
    obtain ⟨j, hj, -, heq⟩ := mem_freeRegions hm
    have := fp.regions_inj heq
    omega
  have hseg : Seg (fun a => ((initRoot fp area mem).mem a).next) (some (fp.regions 2))
      (freeRegions fp) none := by
    obtain ⟨n, hn⟩ : ∃ n, fp.regionsCount - 2 = n + 1 := ⟨fp.regionsCount - 3, by omega⟩
    unfold freeRegions
    rw [hn]
    refine seg_regions 2 (fun i hi hlt => ?_) ?_
    · have hne : fp.regions i ≠ fp.regions (fp.regionsCount - 1) := fun h => by
        have := fp.regions_inj h
        omega
      rw [initRoot_eq, mem_setNext_of_ne _ hne, next_chain hi (by omega)]
    · have hlast : 2 + n = fp.regionsCount - 1 := by omega
      rw [hlast, initRoot_eq, next_setNext_self]
  refine ⟨?_, ?_, rfl, ?_, fun a ha => ?_, fun a ha => ?_, fun a ha => ?_⟩
  · rw [initRoot_fields]
    exact ⟨rfl, next_initRoot_of_lt (by decide)⟩
  · rw [initRoot_fields]
    rfl
  · rw [initRoot_fields]
    exact hseg
  · exact List.mem_singleton.mp ha ▸ hapart 0 (by decide)
  · rw [initRoot_fields] at ha
    obtain rfl : fp.regions 1 = a := Option.some.inj ha
    refine ⟨fun hm => ?_, hapart 1 (by decide)⟩
    have := fp.regions_inj (List.mem_singleton.mp hm)
    omega
  · rcases ha with ha | ha
    · exact ⟨0, by omega, List.mem_singleton.mp ha⟩
    · obtain ⟨i, -, hi, rfl⟩ := mem_freeRegions ha
      exact ⟨i, hi, rfl⟩

theorem extent_initRoot (a : Addr) :
    (initRoot fp area mem).extent a = (initRegions fp area mem).extent a := by
  rw [initRoot_eq]
  exact (extent_setNext _ _ _ _).trans extent_chain

theorem extent_initRoot_first : (initRoot fp area mem).extent (fp.regions 0) =
    ⟨fp.base, pg.bytes, protRead ||| protWrite, 0⟩ := by
  have h01 : fp.regions 0 ≠ fp.regions 1 := fun h => by
    have := fp.regions_inj h
    omega
  rw [extent_initRoot]
  unfold Sc.extent initRegions
  rw [mem_setRegion_of_ne _ h01, mem_setRegion_self]

theorem extent_initRoot_reserved : (initRoot fp area mem).extent (fp.regions 1) =
    ⟨area, reservedLen, protNone, noOffset⟩ := by
  rw [extent_initRoot]
  unfold Sc.extent initRegions
  rw [mem_setRegion_self]

/-- What the kernel promises for the reserved range it chose. -/
structure Ranges (fp : FirstPage pg) (area : Nat) : Prop where
  positive : 0 < area
  reserved : area + reservedLen < 2 ^ 64
  apart : fp.base + pg.bytes ≤ area ∨ area + reservedLen ≤ fp.base

theorem initRoot_files (R : Ranges fp area) :
    Files fp (initRoot fp area mem) [fp.regions 0] (fp.regions 1) := by
  have h0 : (initRoot fp area mem).extent (fp.regions 0) = _ := extent_initRoot_first
  have h1 : (initRoot fp area mem).extent (fp.regions 1) = _ := extent_initRoot_reserved
  have hsize : (initRoot fp area mem).tmpfileSize = pg.bytes := tmpfileSize_initRoot
  have hlt := pg.lt
  refine ⟨reservedRegions_initRoot, h1 ▸ rfl, ?_, ?_, by omega, hsize.symm ▸ Nat.dvd_refl _, h0, fun a ha => ?_,
    fun a ha b hb hab => ?_, fun a ha b hb hab => ?_, fun a ha => ?_⟩
  · rw [h1]
    exact R.positive
  · rw [h1]
    exact R.reserved
  · obtain rfl := List.mem_singleton.mp ha
    rw [h0, hsize]
    exact ⟨fp.below, nofun, fun _ => ⟨0, rfl⟩, Nat.dvd_refl _, fun _ => Nat.le_of_eq (Nat.zero_add _)⟩
  · exact absurd ((List.mem_singleton.mp ha).trans (List.mem_singleton.mp hb).symm) hab
  · exact absurd ((List.mem_singleton.mp ha).trans (List.mem_singleton.mp hb).symm) hab
  · obtain rfl := List.mem_singleton.mp ha
    rw [h0, h1]
    exact R.apart

end Root

section Malloc
variable {fp : FirstPage pg} {fuel : Nat} {heap heap' : Alloc.Heap} {r : Option Nat}

theorem search_null {m : Alloc.Mem} {alloc split cur : Nat} {pPrev : Option Nat}
    (h : Alloc.search m alloc split fuel 0 none = .ok (cur, pPrev)) : cur = 0 := by
  cases fuel with
  | zero => cases h
  | succ fuel =>
    rw [Alloc.search, if_pos (.inl rfl)] at h
    exact (Prod.mk.inj (Except.ok.inj h)).1.symm

theorem scMalloc_ends {σ : Type} {mmap : σ → Nat → Option Nat × σ} {size : Int} {e e' : σ}
    (h : Alloc.scMalloc pg mmap fuel size heap e = .ok (r, heap', e')) :
    ∃ cur pPrev, Alloc.search heap.mem (Alloc.allocSize size.toNat) (Alloc.splitSize size.toNat)
        fuel heap.freeList none = .ok (cur, pPrev) ∧
      (cur ≠ 0 ∧ e' = e ∧ r ≠ none ∨ cur = 0 ∧ e' = (mmap e (Alloc.mmapSize pg size.toNat)).2 ∧
        ((mmap e (Alloc.mmapSize pg size.toNat)).1 = none ∧ r = none ∧ heap' = heap ∨
          (mmap e (Alloc.mmapSize pg size.toNat)).1 ≠ none ∧ r ≠ none)) := by
  unfold Alloc.scMalloc at h
  obtain ⟨-, -, h⟩ := bind_eq_ok.mp h
  dsimp only at h
  split at h
  · cases h
  rename_i hlock
  obtain ⟨-, -, h⟩ := bind_eq_ok.mp h
  obtain ⟨⟨cur, pPrev⟩, hsearch, h⟩ := bind_eq_ok.mp h
  refine ⟨cur, pPrev, hsearch, ?_⟩
  dsimp only at h
  split at h
  · rename_i hcur
    refine .inr ⟨hcur, ?_⟩
    split at h
    · rename_i e₁ hmap
      obtain ⟨hr, hrest⟩ := Prod.mk.inj (Except.ok.inj h)
      obtain ⟨hheap, rfl⟩ := Prod.mk.inj hrest
      refine ⟨(congrArg Prod.snd hmap).symm, .inl ⟨congrArg Prod.fst hmap, hr.symm, ?_⟩⟩
      rw [← hheap, ← Bool.eq_false_iff.mpr hlock]
    · rename_i buf e₁ hmap
      obtain ⟨⟨retval, h₁⟩, -, h⟩ := bind_eq_ok.mp h
      obtain ⟨hr, hrest⟩ := Prod.mk.inj (Except.ok.inj h)
      obtain ⟨-, rfl⟩ := Prod.mk.inj hrest
      refine ⟨(congrArg Prod.snd hmap).symm, .inr ⟨?_, ?_⟩⟩
      · rw [hmap]
        exact Option.some_ne_none buf
      · rw [← hr]
        exact Option.some_ne_none retval
  · rename_i hcur
    obtain ⟨⟨retval, h₁⟩, -, h⟩ := bind_eq_ok.mp h
    obtain ⟨hr, hrest⟩ := Prod.mk.inj (Except.ok.inj h)
    obtain ⟨-, rfl⟩ := Prod.mk.inj hrest
    refine .inl ⟨hcur, rfl, ?_⟩
    rw [← hr]
    exact Option.some_ne_none retval

theorem scMalloc_calls {σ : Type} {mmap : σ → Nat → Option Nat × σ} {size : Int} {e e' : σ}
    (h : Alloc.scMalloc pg mmap fuel size heap e = .ok (r, heap', e')) :
    (heap.freeList ≠ 0 ∧ e' = e) ∨
      ∃ len, e' = (mmap e len).2 ∧ (r ≠ none → (mmap e len).1 ≠ none) := by
  obtain ⟨cur, pPrev, hsearch, ⟨hcur, he, -⟩ | ⟨rfl, he, hr⟩⟩ := scMalloc_ends h
  · refine .inl ⟨fun hnull => hcur ?_, he⟩
    rw [hnull] at hsearch
    exact search_null hsearch
  · refine .inr ⟨_, he, fun hne => ?_⟩
    rcases hr with ⟨-, hnone, -⟩ | ⟨hsome, -⟩
    · exact absurd hnone hne
    · exact hsome

variable {answers : Answers} {w w' : World}

theorem initMalloc_spec (h : initMalloc fp answers fuel heap w = .ok (r, heap', w')) :
    (heap.freeList ≠ 0 ∧ w' = w) ∨ ∃ len retval,
      scMmap fp answers w 0 len (protRead ||| protWrite) (-1) 0 = .ok (retval, w') ∧
        (r ≠ none → retval ≠ none) := by
  unfold initMalloc at h
  obtain ⟨⟨proc, heap₁, e⟩, hm, h⟩ := bind_eq_ok.mp h
  obtain ⟨w₁, he, h⟩ := bind_eq_ok.mp h
  obtain ⟨rfl, hrest⟩ := Prod.mk.inj (Except.ok.inj h)
  obtain ⟨-, rfl⟩ := Prod.mk.inj hrest
  rcases scMalloc_calls hm with ⟨hne, rfl⟩ | ⟨len, rfl, hret⟩
  · exact .inl ⟨hne, (Except.ok.inj he).symm⟩
  · refine .inr ⟨len, ?_⟩
    simp only [mallocMmap] at he hret
    cases hmap : scMmap fp answers w 0 len (protRead ||| protWrite) (-1) 0 with
    | error e =>
      rw [hmap] at he
      cases he
    | ok result =>
      obtain ⟨retval, w₂⟩ := result
      rw [hmap] at he hret
      obtain rfl := Except.ok.inj he
      exact ⟨retval, rfl, hret⟩

end Malloc

section Spec
variable {fp : FirstPage pg} {answers : InitAnswers} {fuel : Nat} {w w' : World}

def World.registered (w : World) : World :=
  { w with sc := { w.sc with procCount := 1, lock := false } }

theorem scInit_spec (h : scInit fp answers fuel w = .ok (some w')) :
    ∃ area w₁ len v, answers.area = some area ∧
      scMmap fp answers.first (initWorld fp area w) 0 len (protRead ||| protWrite) (-1) 0 =
        .ok (some v, w₁) ∧
      (w' = w₁.registered ∨ ∃ len' v',
        scMmap fp answers.second w₁.registered 0 len' (protRead ||| protWrite) (-1) 0 =
          .ok (some v', w')) := by
  unfold scInit at h
  split at h
  · cases h
  split at h
  · cases h
  split at h
  · cases h
  split at h
  · cases h
  split at h
  · cases h
  obtain ⟨-, -, h⟩ := bind_eq_ok.mp h
  split at h
  · cases h
  rename_i area harea
  obtain ⟨⟨firstProc, heap, w₁⟩, hfirst, h⟩ := bind_eq_ok.mp h
  obtain ⟨_, hproc, h⟩ := bind_eq_ok.mp h
  obtain ⟨w₂, hlock, h⟩ := bind_eq_ok.mp h
  obtain ⟨-, rfl⟩ := lockRoot_spec hlock
  obtain ⟨⟨nextProc, heap₁, w₃⟩, hnext, h⟩ := bind_eq_ok.mp h
  obtain ⟨_, hnull, h⟩ := bind_eq_ok.mp h
  split at h
  · cases h
  obtain rfl := Option.some.inj (Except.ok.inj h)
  rcases initMalloc_spec hfirst with ⟨hne, -⟩ | ⟨len, v, hmap, hv⟩
  · exact absurd rfl hne
  have hv := hv (check_eq_ok.mp hproc)
  obtain ⟨v, rfl⟩ := Option.ne_none_iff_exists'.mp hv
  refine ⟨area, w₁, len, v, harea, hmap, ?_⟩
  rcases initMalloc_spec hnext with ⟨-, rfl⟩ | ⟨len', v', hmap', hv'⟩
  · exact .inl rfl
  · have hv' := hv' (haltIf_eq_ok.mp hnull)
    obtain ⟨v', rfl⟩ := Option.ne_none_iff_exists'.mp hv'
    exact .inr ⟨len', v', hmap'⟩

end Spec
end Subcontexts.Region
