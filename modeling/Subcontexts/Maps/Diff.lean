import Subcontexts.Maps.Chain
import Subcontexts.Scon.Isolation

/-! `Map_diff` copies the entries of `after` that equal none of `before`; what that says of the
addresses in the two maps, and of the memory that `scon_create` then protects. -/

namespace Subcontexts.Maps
variable {h h₀ h' : Heap} {before after diff : Map} {bs as ds : List MapEntry}
  {lb la ld : List Addr} {fuel bound : Nat} {acurr diffCurr : Option Addr}

def isNew (bs : List MapEntry) (a : MapEntry) : Bool := !bs.any fun b => mapEntryEqual b a

section Loop

theorem Chain.uncons {head : Option Addr} {a : Addr} {l : List Addr} {es : List MapEntry}
    (C : Chain h head (a :: l) es) : head = some a ∧ a < h.used ∧
      ∃ es', es = (h.mem a).toMapEntry :: es' ∧ Chain h (h.mem a).next l es' :=
  ⟨C.holds.1, C.taken a (List.mem_cons_self ..), _, C.entries.symm,
    C.holds.2, fun b hb => C.taken b (List.mem_cons_of_mem _ hb), rfl⟩

theorem Chain.head_nil {head : Option Addr} {es : List MapEntry} (C : Chain h head [] es) :
    head = none ∧ es = [] := ⟨C.holds, C.entries.symm⟩

theorem inBoth_eq {a : Addr} {head : Option Addr} (B : Chain h head lb bs)
    (hfuel : lb.length < fuel) :
    inBoth h a fuel head = .ok (!isNew bs (h.mem a).toMapEntry) := by
  unfold isNew
  rw [Bool.not_not]
  induction lb generalizing head bs fuel with
  | nil =>
    obtain ⟨rfl, rfl⟩ := B.head_nil
    cases fuel with
    | zero => exact absurd hfuel (Nat.not_lt_zero _)
    | succ fuel => rfl
  | cons b lb ih =>
    obtain ⟨rfl, -, bs, rfl, B'⟩ := B.uncons
    cases fuel with
    | zero => exact absurd hfuel (Nat.not_lt_zero _)
    | succ fuel =>
      rw [inBoth, ih B' (Nat.lt_of_succ_lt_succ hfuel), List.any_cons]
      split
      · rename_i heq
        rw [heq, Bool.true_or]
      · rename_i hne
        rw [Bool.eq_false_iff.mpr hne, Bool.false_or]

structure Diffing (h₀ h : Heap) (diff : Map) (diffCurr : Option Addr) (ld : List Addr)
    (ds : List MapEntry) : Prop where
  chain : Chain h diff.head ld ds
  curr : ld ≠ [] → diffCurr = ld.getLast?
  old : ∀ a < h₀.used, h.mem a = h₀.mem a
  fresh : ∀ a ∈ ld, h₀.used ≤ a
  used : h₀.used ≤ h.used
  size : diff.size = 0

theorem Diffing.init (h₀ : Heap) : Diffing h₀ h₀ mapNew none [] [] :=
  ⟨.nil, fun h => absurd rfl h, fun _ _ => rfl, by simp, Nat.le_refl _, rfl⟩

theorem Diffing.first {e : MapEntry} (D : Diffing h₀ h diff diffCurr [] ds) :
    Diffing h₀ (h.alloc ⟨e, none⟩).2 { diff with head := some h.used } (some h.used) [h.used]
      (ds ++ [e]) := by
  obtain ⟨-, rfl⟩ := D.chain.head_nil
  refine ⟨Chain.single, fun _ => rfl, fun a ha => ?_, fun a ha => ?_, ?_, D.size⟩
  · rw [mem_alloc_of_ne (Nat.ne_of_lt (Nat.lt_of_lt_of_le ha D.used)), D.old a ha]
  · obtain rfl := List.mem_singleton.mp ha
    exact D.used
  · apply Nat.le_succ_of_le D.used

theorem Diffing.next {e : MapEntry} {curr : Addr} (D : Diffing h₀ h diff diffCurr ld ds)
    (hcurr : ld.getLast? = some curr) :
    Diffing h₀ ((h.alloc ⟨e, none⟩).2.setNext curr (some h.used)) diff (some h.used)
      (ld ++ [h.used]) (ds ++ [e]) := by
  refine ⟨D.chain.append hcurr, fun _ => ?_, fun a ha => ?_, fun a ha => ?_, ?_, D.size⟩
  · rw [List.getLast?_concat]
  · have hne : a ≠ curr := by
      rintro rfl
      exact absurd (D.fresh a (List.mem_of_getLast? hcurr)) (Nat.not_le_of_lt ha)
    rw [mem_setNext_of_ne hne, mem_alloc_of_ne (Nat.ne_of_lt (Nat.lt_of_lt_of_le ha D.used)),
      D.old a ha]
  · rcases List.mem_append.mp ha with ha | ha
    · exact D.fresh a ha
    · obtain rfl := List.mem_singleton.mp ha
      exact D.used
  · apply Nat.le_succ_of_le D.used

theorem mapDiffLoop_old {a : Addr} (hold : inBoth h a bound before.head = .ok true) :
    mapDiffLoop before bound (fuel + 1) (some a) diff diffCurr h =
      mapDiffLoop before bound fuel (h.mem a).next diff diffCurr h := by
  rw [mapDiffLoop, hold, ok_bind, if_pos rfl]

theorem mapDiffLoop_first {a : Addr} (hnew : inBoth h a bound before.head = .ok false)
    (hhead : diff.head = none) :
    mapDiffLoop before bound (fuel + 1) (some a) diff diffCurr h =
      mapDiffLoop before bound fuel ((h.alloc { h.mem a with next := none }).2.mem a).next
        { diff with head := some h.used } (some h.used)
        (h.alloc { h.mem a with next := none }).2 := by
  rw [mapDiffLoop, hnew, ok_bind, if_neg Bool.false_ne_true, hhead]
  rfl

theorem mapDiffLoop_next {a d curr : Addr} (hnew : inBoth h a bound before.head = .ok false)
    (hhead : diff.head = some d) :
    mapDiffLoop before bound (fuel + 1) (some a) diff (some curr) h =
      mapDiffLoop before bound fuel
        (((h.alloc { h.mem a with next := none }).2.setNext curr (some h.used)).mem a).next diff
        (some h.used) ((h.alloc { h.mem a with next := none }).2.setNext curr (some h.used)) := by
  rw [mapDiffLoop, hnew, ok_bind, if_neg Bool.false_ne_true, hhead]
  rfl

theorem mapDiffLoop_spec (D : Diffing h₀ h diff diffCurr ld ds) (B : Chain h₀ before.head lb bs)
    (A : Chain h₀ acurr la as) (hbound : lb.length < bound) (hfuel : la.length < fuel) :
    ∃ diff' h' diffCurr' ld', mapDiffLoop before bound fuel acurr diff diffCurr h = .ok (diff', h') ∧
      Diffing h₀ h' diff' diffCurr' ld' (ds ++ as.filter (isNew bs)) := by
  induction la generalizing acurr as diff diffCurr h ld ds fuel with
  | nil =>
    obtain ⟨rfl, rfl⟩ := A.head_nil
    cases fuel with
    | zero => exact absurd hfuel (Nat.not_lt_zero _)
    | succ fuel =>
      refine ⟨diff, h, diffCurr, ld, rfl, ?_⟩
      rw [List.filter_nil, List.append_nil]
      exact D
  | cons a la ih =>
    obtain ⟨rfl, ha, as, rfl, A'⟩ := A.uncons
    cases fuel with
    | zero => exact absurd hfuel (Nat.not_lt_zero _)
    | succ fuel =>
      have hfuel := Nat.lt_of_succ_lt_succ hfuel
      have B' : Chain h before.head lb bs := B.frame (fun b hb => D.old b (B.taken b hb)) D.used
      have hin := D.old a ha ▸ inBoth_eq (a := a) B' hbound
      by_cases hnew : isNew bs (h₀.mem a).toMapEntry = true
      · have hsplit : ds ++ ((h₀.mem a).toMapEntry :: as).filter (isNew bs) =
            ds ++ [(h₀.mem a).toMapEntry] ++ as.filter (isNew bs) := by
          rw [List.filter_cons_of_pos hnew, List.append_assoc, List.singleton_append]
        rw [hnew] at hin
        rw [hsplit]
        cases ld with
        | nil =>
          obtain ⟨hhead, -⟩ := D.chain.head_nil
          have D' := D.first (e := (h₀.mem a).toMapEntry)
          rw [mapDiffLoop_first hin hhead, D.old a ha, D'.old a ha]
          exact ih D' A' hfuel
        | cons d ld =>
          obtain ⟨hhead, -⟩ := D.chain.uncons
          obtain ⟨curr, hcurr⟩ : ∃ curr, (d :: ld).getLast? = some curr :=
            ⟨_, List.getLast?_eq_some_getLast (List.cons_ne_nil d ld)⟩
          have D' := D.next (e := (h₀.mem a).toMapEntry) hcurr
          rw [D.curr (List.cons_ne_nil d ld), hcurr, mapDiffLoop_next hin hhead, D.old a ha,
            D'.old a ha]
          exact ih D' A' hfuel
      · rw [Bool.eq_false_iff.mpr hnew] at hin
        rw [List.filter_cons_of_neg hnew, mapDiffLoop_old hin, D.old a ha]
        exact ih D A' hfuel

theorem mapDiff_spec (B : Chain h before.head lb bs) (A : Chain h after.head la as)
    (hb : lb.length < fuel) (ha : la.length < fuel) :
    ∃ diff h', mapDiff fuel h before after = .ok (diff, h') ∧ diff.size = 0 ∧
      h'.Shows diff (as.filter (isNew bs)) ∧ ∀ a < h.used, h'.mem a = h.mem a := by
  obtain ⟨diff, h', diffCurr, ld, hrun, D⟩ := mapDiffLoop_spec (Diffing.init h) B A hb ha
  exact ⟨diff, h', hrun, D.size, ⟨ld, D.chain⟩, D.old⟩

theorem mapDiff_shows (hb : h.Shows before bs) (ha : h.Shows after as) (hbs : bs.length < fuel)
    (has : as.length < fuel) : ∃ diff h', mapDiff fuel h before after = .ok (diff, h') ∧
      h'.Shows diff (as.filter (isNew bs)) := by
  obtain ⟨lb, B⟩ := hb
  obtain ⟨la, A⟩ := ha
  obtain ⟨diff, h', hrun, -, hshows, -⟩ :=
    mapDiff_spec B A (B.length_eq ▸ hbs) (A.length_eq ▸ has)
  exact ⟨diff, h', hrun, hshows⟩

theorem map_toRange_filter (bs as : List MapEntry) :
    (as.filter (isNew bs)).map MapEntry.toRange =
      Scon.mapDiff (bs.map MapEntry.toRange) (as.map MapEntry.toRange) := by
  induction as with
  | nil => rfl
  | cons a as ih =>
    have hany : ((bs.map MapEntry.toRange).any fun b => Scon.mapEntryEqual b a.toRange) =
        !isNew bs a := by
      rw [List.any_map, isNew, Bool.not_not]
      rfl
    rw [List.map_cons, Scon.mapDiff, hany, ← ih]
    by_cases hnew : isNew bs a = true
    · rw [List.filter_cons_of_pos hnew, hnew]
      rfl
    · rw [List.filter_cons_of_neg hnew, Bool.eq_false_iff.mpr hnew]
      rfl

end Loop

section Memory

def Mapped (es : List MapEntry) (addr : Nat) : Prop := ∃ e ∈ es, e.toRange.contains addr

/-- Disjoint ranges in ascending order, as the kernel reports them. -/
def Ascending (es : List MapEntry) : Prop :=
  (∀ e ∈ es, e.startAddr < e.endAddr) ∧ es.Pairwise fun a b => a.endAddr ≤ b.startAddr

/-- What is mapped before and after keeps its range: an entry of `as` that shares an address with
`bs` has the range of an entry of `bs`. -/
def Unchanged (bs as : List MapEntry) : Prop :=
  ∀ a ∈ as, (∃ addr, a.toRange.contains addr ∧ Mapped bs addr) →
    ∃ b ∈ bs, mapEntryEqual b a = true

theorem isNew_iff {a : MapEntry} : isNew bs a = true ↔ ¬ ∃ b ∈ bs, mapEntryEqual b a = true := by
  simp [isNew]

theorem contains_of_equal {a b : MapEntry} {addr : Nat} (h : mapEntryEqual b a = true)
    (ha : a.toRange.contains addr) : b.toRange.contains addr := by
  unfold mapEntryEqual Scon.mapEntryEqual at h
  rw [Bool.and_eq_true, beq_iff_eq, beq_iff_eq] at h
  unfold Scon.MapEntry.contains at ha ⊢
  rw [h.1, h.2]
  exact ha

theorem mapped_filter {addr : Nat} : Mapped (as.filter (isNew bs)) addr ↔
    ∃ a ∈ as, a.toRange.contains addr ∧ ¬ ∃ b ∈ bs, mapEntryEqual b a = true := by
  unfold Mapped
  apply exists_congr
  intro a
  rw [List.mem_filter, isNew_iff, and_assoc, and_comm (a := a.toRange.contains addr)]

theorem unchanged_iff_apart :
    Unchanged bs as ↔ ∀ addr, Mapped (as.filter (isNew bs)) addr → ¬ Mapped bs addr := by
  constructor
  · intro hsame addr hd hbs
    obtain ⟨a, ha, hin, hnew⟩ := mapped_filter.mp hd
    exact hnew (hsame a ha ⟨addr, hin, hbs⟩)
  · intro hapart a ha ⟨addr, hin, hbs⟩
    by_contra hnew
    exact hapart addr (mapped_filter.mpr ⟨a, ha, hin, hnew⟩) hbs

theorem new_memory_iff : (∀ addr, Mapped (as.filter (isNew bs)) addr ↔
    Mapped as addr ∧ ¬ Mapped bs addr) ↔ Unchanged bs as := by
  rw [unchanged_iff_apart]
  constructor
  · intro hexact addr hd
    exact ((hexact addr).mp hd).2
  · intro hapart addr
    constructor
    · intro hd
      obtain ⟨a, ha, hin, -⟩ := mapped_filter.mp hd
      exact ⟨⟨a, ha, hin⟩, hapart addr hd⟩
    · rintro ⟨⟨a, ha, hin⟩, hbs⟩
      refine mapped_filter.mpr ⟨a, ha, hin, ?_⟩
      rintro ⟨b, hb, heq⟩
      exact hbs ⟨b, hb, contains_of_equal heq hin⟩

theorem mapped_toRange {es : List MapEntry} {addr : Nat} :
    (∃ e ∈ es.map MapEntry.toRange, e.contains addr) ↔ Mapped es addr := by
  unfold Mapped
  simp

theorem mprotect_spares_iff (hfits : ∀ d ∈ as.filter (isNew bs), d.toRange.Fits) :
    (∀ prot addr, Mapped bs addr →
      Scon.mprotectMap ((as.filter (isNew bs)).map MapEntry.toRange) .none prot addr = prot addr) ↔
      Unchanged bs as := by
  have hfits' : ∀ d ∈ (as.filter (isNew bs)).map MapEntry.toRange, d.Fits := by
    intro d hd
    obtain ⟨e, he, rfl⟩ := List.mem_map.mp hd
    exact hfits e he
  simp only [Scon.mprotectMap_apply hfits']
  rw [unchanged_iff_apart]
  constructor
  · intro hspared addr hd hbs
    have hlost := hspared (fun _ => .rwx) addr hbs
    rw [if_pos (mapped_toRange.mpr hd)] at hlost
    cases hlost
  · intro hapart prot addr hbs
    exact if_neg fun hd => hapart addr (mapped_toRange.mp hd) hbs

theorem mapDiff_new_memory_iff (hb : h.Shows before bs) (ha : h.Shows after as)
    (hbs : bs.length < fuel) (has : as.length < fuel) :
    ∃ diff h' ds, mapDiff fuel h before after = .ok (diff, h') ∧ h'.Shows diff ds ∧
      ((∀ addr, Mapped ds addr ↔ Mapped as addr ∧ ¬ Mapped bs addr) ↔ Unchanged bs as) ∧
      ((∀ d ∈ ds, d.toRange.Fits) → ((∀ prot addr, Mapped bs addr →
        Scon.mprotectMap (ds.map MapEntry.toRange) .none prot addr = prot addr) ↔
          Unchanged bs as)) := by
  obtain ⟨diff, h', hrun, hshows⟩ := mapDiff_shows hb ha hbs has
  exact ⟨diff, h', _, hrun, hshows, new_memory_iff, mprotect_spares_iff⟩

end Memory

section Run

def anonymous (startAddr endAddr : Nat) : MapEntry :=
  ⟨⟨startAddr, endAddr⟩, true, true, false, true, 0, 0, 0, 0, []⟩

def twoMaps (b a : MapEntry) : Heap := ⟨fun x => if x = 0 then ⟨b, none⟩ else ⟨a, none⟩, 2⟩

theorem twoMaps_before {b a : MapEntry} : (twoMaps b a).Shows ⟨some 0, 1⟩ [b] :=
  ⟨[0], ⟨rfl, rfl⟩, by simp [twoMaps], rfl⟩

theorem twoMaps_after {b a : MapEntry} : (twoMaps b a).Shows ⟨some 1, 1⟩ [a] :=
  ⟨[1], ⟨rfl, rfl⟩, by simp [twoMaps], rfl⟩

/-- A range that vanishes while another appears elsewhere: only the new one is reported. -/
theorem mapDiff_new_memory_library : ∃ diff h' ds,
    mapDiff 2 (twoMaps (anonymous 0x1000 0x2000) (anonymous 0x4000 0x5000)) ⟨some 0, 1⟩ ⟨some 1, 1⟩ =
      .ok (diff, h') ∧ h'.Shows diff ds ∧ ∀ addr, Mapped ds addr ↔
        Mapped [anonymous 0x4000 0x5000] addr ∧ ¬ Mapped [anonymous 0x1000 0x2000] addr := by
  obtain ⟨diff, h', ds, hrun, hshows, hexact, -⟩ :=
    mapDiff_new_memory_iff (twoMaps_before (b := anonymous 0x1000 0x2000))
      (twoMaps_after (a := anonymous 0x4000 0x5000)) Nat.one_lt_two Nat.one_lt_two
  refine ⟨diff, h', ds, hrun, hshows, hexact.mpr ?_⟩
  rintro a ha ⟨addr, hin, b, hb, hin'⟩
  obtain rfl := List.mem_singleton.mp ha
  obtain rfl := List.mem_singleton.mp hb
  have hlow : addr < 0x2000 := hin'.2
  have hhigh : 0x4000 ≤ addr := hin.1
  omega

/-- While the library is loaded the heap grows from one page to two. -/
theorem mapDiff_grown : ∃ diff h' ds,
    Ascending [anonymous 0x1000 0x2000] ∧ Ascending [anonymous 0x1000 0x3000] ∧
      mapDiff 2 (twoMaps (anonymous 0x1000 0x2000) (anonymous 0x1000 0x3000)) ⟨some 0, 1⟩
        ⟨some 1, 1⟩ = .ok (diff, h') ∧ h'.Shows diff ds ∧
      Mapped ds 0x1000 ∧ Mapped [anonymous 0x1000 0x2000] 0x1000 ∧
      Scon.mprotectMap (ds.map MapEntry.toRange) .none (fun _ => .rwx) 0x1000 = .none := by
  obtain ⟨diff, h', hrun, hshows⟩ :=
    mapDiff_shows (twoMaps_before (b := anonymous 0x1000 0x2000))
      (twoMaps_after (a := anonymous 0x1000 0x3000)) Nat.one_lt_two Nat.one_lt_two
  refine ⟨diff, h', _, ⟨by simp [anonymous], by simp⟩, ⟨by simp [anonymous], by simp⟩, hrun, hshows,
    ?_, ?_, by decide⟩
  · exact ⟨anonymous 0x1000 0x3000, by decide, by decide⟩
  · exact ⟨anonymous 0x1000 0x2000, by decide, by decide⟩

end Run
end Subcontexts.Maps
