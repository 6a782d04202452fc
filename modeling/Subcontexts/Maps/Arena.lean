import Subcontexts.Lib.Tiling
import Subcontexts.Maps.Diff
import Subcontexts.Maps.Parse

/-! The structs behind the maps from `calloc` to `free`: who owns each of them, and what `Map_free`
gives back. -/

namespace Subcontexts.Maps

/-- The entry structs, those of them that were freed, and the `Map` structs in the order in which
they were made, where `none` is one that was freed. -/
structure Arena where
  heap : Heap
  freed : Addr → Bool
  maps : List (Option Map)

namespace Arena

def get (ar : Arena) (self : Addr) : Except Halt Map :=
  match ar.maps[self]? with
  | some (some m) => .ok m
  | _ => .error .fault

def free (ar : Arena) (a : Addr) : Except Halt Arena := do
  haltIf .fault (ar.heap.used ≤ a ∨ ar.freed a = true)
  return { ar with freed := Function.update ar.freed a true }

def put (ar : Arena) (h : Heap) (m : Map) : Addr × Arena :=
  (ar.maps.length, { ar with heap := h, maps := ar.maps ++ [some m] })

end Arena

def mapFreeLoop : Nat → Option Addr → Arena → Except Halt Arena
  | 0, _, _ => .error .fuel
  | _ + 1, none, ar => .ok ar
  | fuel + 1, some curr, ar => do
    haltIf .fault (ar.freed curr = true)
    let next := (ar.heap.mem curr).next
    let ar ← ar.free curr
    mapFreeLoop fuel next ar

def mapFree (self : Addr) (ar : Arena) : Except Halt Arena := do
  let m ← ar.get self
  let ar ← mapFreeLoop (ar.heap.used + 1) m.head ar
  return { ar with maps := ar.maps.set self none }

def entriesLoop : Nat → Option Addr → Arena → Except Halt (List MapEntry)
  | 0, _, _ => .error .fuel
  | _ + 1, none, _ => .ok []
  | fuel + 1, some curr, ar => do
    haltIf .fault (ar.freed curr = true)
    let es ← entriesLoop fuel (ar.heap.mem curr).next ar
    return (ar.heap.mem curr).toMapEntry :: es

namespace Arena

def entries (ar : Arena) (self : Addr) : Except Halt (List MapEntry) := do
  let m ← ar.get self
  entriesLoop (ar.heap.used + 1) m.head ar

/-- `Map_parse`; the address is `none` for `NULL`. -/
def parse (junk : Nat → Nat → Char) (mapsfile : Option (List Char)) (ar : Arena) :
    Except Halt (Option Addr × Arena) := do
  let (m, h) ← mapParse junk mapsfile ar.heap
  match m with
  | none => return (none, { ar with heap := h })
  | some m => return (some (ar.put h m).1, (ar.put h m).2)

def diff (before after : Addr) (ar : Arena) : Except Halt (Addr × Arena) := do
  let a ← ar.get after
  let b ← ar.get before
  let (m, h) ← mapDiff (ar.heap.used + 1) ar.heap b a
  return ar.put h m

end Arena

section Grows
variable {h₀ h h' : Heap} {head curr : Option Addr} {l : List Addr}

structure Grows (h₀ h : Heap) (head curr : Option Addr) (l : List Addr) : Prop where
  holds : (h.links head).Holds l
  range : l = List.range' h₀.used l.length
  used : h.used = h₀.used + l.length
  curr : curr = l.getLast?
  old : ∀ a < h₀.used, h.mem a = h₀.mem a

theorem Grows.init (h₀ : Heap) : Grows h₀ h₀ none none [] :=
  ⟨rfl, rfl, rfl, rfl, fun _ _ => rfl⟩

theorem Grows.mem_iff (G : Grows h₀ h head curr l) {a : Addr} : a ∈ l ↔ h₀.used ≤ a ∧ a < h.used := by
  rw [G.range, List.mem_range'_1, G.used]

theorem Grows.chain (G : Grows h₀ h head curr l) :
    Chain h head l (l.map fun a => (h.mem a).toMapEntry) :=
  ⟨G.holds, fun _ ha => (G.mem_iff.mp ha).2, rfl⟩

theorem Grows.range_concat (G : Grows h₀ h head curr l) :
    l ++ [h.used] = List.range' h₀.used (l ++ [h.used]).length := by
  rw [List.length_append, List.length_singleton, List.range'_concat, ← G.range, G.used, Nat.one_mul]

theorem Grows.first {e : MapEntry} (G : Grows h₀ h head none l) :
    Grows h₀ (h.alloc ⟨e, none⟩).2 (some h.used) (some h.used) [h.used] := by
  obtain rfl := List.getLast?_eq_none_iff.mp G.curr.symm
  have hused : h.used = h₀.used := G.used
  refine ⟨Chain.single.holds, congrArg (fun a => [a]) hused, congrArg Nat.succ hused, rfl,
    fun a ha => ?_⟩
  rw [mem_alloc_of_ne (Nat.ne_of_lt (hused ▸ ha)), G.old a ha]

theorem Grows.next {e : MapEntry} {last : Addr} (G : Grows h₀ h head (some last) l) :
    Grows h₀ ((h.alloc ⟨e, none⟩).2.setNext last (some h.used)) head (some h.used)
      (l ++ [h.used]) := by
  have hlast := G.mem_iff.mp (List.mem_of_getLast? G.curr.symm)
  refine ⟨(G.chain.append G.curr.symm).holds, G.range_concat, ?_, List.getLast?_concat.symm,
    fun a ha => ?_⟩
  · rw [List.length_append, List.length_singleton]
    exact congrArg Nat.succ G.used
  · have hused : a < h.used := Nat.lt_of_lt_of_le ha (G.used ▸ Nat.le_add_right ..)
    rw [mem_setNext_of_ne (Nat.ne_of_lt (Nat.lt_of_lt_of_le ha hlast.1)),
      mem_alloc_of_ne (Nat.ne_of_lt hused), G.old a ha]

theorem mapParseLoop_grows {junk : Nat → Nat → Char} {fuel : Nat} {input : List Char} {maps m : Map}
    (G : Grows h₀ h maps.head curr l) (hrun : mapParseLoop junk fuel input maps curr h = .ok (m, h')) :
    ∃ curr' l', Grows h₀ h' m.head curr' l' := by
  induction fuel generalizing input maps curr h l with
  | zero => cases hrun
  | succ fuel ih =>
    rw [mapParseLoop] at hrun
    split at hrun
    · obtain ⟨rfl, rfl⟩ := Prod.mk.inj (Except.ok.inj hrun)
      exact ⟨curr, l, G⟩
    · obtain ⟨e, -, hrun⟩ := bind_eq_ok.mp hrun
      cases curr with
      | none =>
        refine ih (l := [h.used]) ?_ hrun
        exact G.first
      | some last =>
        refine ih (l := l ++ [h.used]) ?_ hrun
        exact G.next

theorem mapDiffLoop_grows {before diff m : Map} {bound fuel : Nat} {acurr : Option Addr}
    (G : Grows h₀ h diff.head curr l)
    (hrun : mapDiffLoop before bound fuel acurr diff curr h = .ok (m, h')) :
    ∃ curr' l', Grows h₀ h' m.head curr' l' := by
  induction fuel generalizing acurr diff curr h l with
  | zero => cases hrun
  | succ fuel ih =>
    cases acurr with
    | none =>
      obtain ⟨rfl, rfl⟩ := Prod.mk.inj (Except.ok.inj hrun)
      exact ⟨curr, l, G⟩
    | some a =>
      rw [mapDiffLoop] at hrun
      obtain ⟨old, -, hrun⟩ := bind_eq_ok.mp hrun
      cases old with
      | true => exact ih G hrun
      | false =>
        have hhead := G.holds.head?_eq
        cases curr with
        | none =>
          obtain rfl := List.getLast?_eq_none_iff.mp G.curr.symm
          have hnone : diff.head = none := hhead.symm
          rw [if_neg Bool.false_ne_true, hnone] at hrun
          exact ih G.first hrun
        | some last =>
          obtain ⟨d, hd⟩ : ∃ d, diff.head = some d := by
            obtain ⟨d, rest, rfl⟩ := List.exists_cons_of_ne_nil
              (List.ne_nil_of_mem (List.mem_of_getLast? G.curr.symm))
            exact ⟨d, hhead.symm⟩
          rw [if_neg Bool.false_ne_true, hd] at hrun
          exact ih G.next hrun

theorem mapDiff_grows {before after m : Map} {fuel : Nat}
    (hrun : mapDiff fuel h before after = .ok (m, h')) : ∃ curr l, Grows h h' m.head curr l :=
  mapDiffLoop_grows (Grows.init h) hrun

theorem mapParse_grows {junk : Nat → Nat → Char} {mapsfile : Option (List Char)} {m : Option Map}
    (hrun : mapParse junk mapsfile h = .ok (m, h')) :
    (m = none ∧ h' = h) ∨ ∃ maps curr l, m = some maps ∧ Grows h h' maps.head curr l := by
  cases mapsfile with
  | none =>
    obtain ⟨rfl, rfl⟩ := Prod.mk.inj (Except.ok.inj hrun)
    exact .inl ⟨rfl, rfl⟩
  | some input =>
    obtain ⟨⟨maps, h''⟩, hloop, hret⟩ := bind_eq_ok.mp hrun
    obtain ⟨rfl, rfl⟩ := Prod.mk.inj (Except.ok.inj hret)
    obtain ⟨curr, l, G⟩ := mapParseLoop_grows (Grows.init h) hloop
    exact .inr ⟨maps, curr, l, rfl, G⟩

end Grows

/-- The structs in use, each of which belongs to one of the maps: `owned` has the `Map` struct and
the entries of each. -/
structure Owned (ar : Arena) (owned : List (Addr × List Addr)) : Prop where
  lists : ∀ o ∈ owned, ∃ m, ar.maps[o.1]? = some (some m) ∧ (ar.heap.links m.head).Holds o.2
  ids : (owned.map Prod.fst).Nodup
  maps : ∀ i m, ar.maps[i]? = some (some m) → i ∈ owned.map Prod.fst
  entries : Tiles (owned.map fun o => {a | a ∈ o.2}) {a | a < ar.heap.used ∧ ar.freed a = false}
  fresh : ∀ a, ar.heap.used ≤ a → ar.freed a = false

section Owned
variable {ar : Arena} {owned owned' : List (Addr × List Addr)} {i : Addr} {l : List Addr}

theorem Owned.perm (O : Owned ar owned) (hp : owned.Perm owned') : Owned ar owned' :=
  ⟨fun o ho => O.lists o (hp.mem_iff.mpr ho), (hp.map _).nodup_iff.mp O.ids,
    fun i m hm => (hp.map _).mem_iff.mp (O.maps i m hm), O.entries.perm (hp.map _), O.fresh⟩

theorem Owned.taken (O : Owned ar owned) {o : Addr × List Addr} (ho : o ∈ owned) {a : Addr}
    (ha : a ∈ o.2) : a < ar.heap.used ∧ ar.freed a = false :=
  O.entries.subset (List.mem_map_of_mem ho) ha

theorem Owned.chain (O : Owned ar owned) {o : Addr × List Addr} (ho : o ∈ owned) :
    ∃ m, ar.get o.1 = .ok m ∧
      Chain ar.heap m.head o.2 (o.2.map fun a => (ar.heap.mem a).toMapEntry) := by
  obtain ⟨m, hm, hl⟩ := O.lists o ho
  refine ⟨m, ?_, hl, fun a ha => (O.taken ho ha).1, rfl⟩
  unfold Arena.get
  rw [hm]

theorem Chain.length_le {h : Heap} {head : Option Addr} {es : List MapEntry} (C : Chain h head l es) :
    l.length ≤ h.used := by
  have hsub : l ⊆ List.range h.used := fun a ha => List.mem_range.mpr (C.taken a ha)
  rw [← List.length_range (n := h.used)]
  exact (List.subperm_of_subset C.holds.nodup hsub).length_le

theorem Owned.put (O : Owned ar owned) {h : Heap} {m : Map} {curr : Option Addr}
    (G : Grows ar.heap h m.head curr l) :
    Owned (ar.put h m).2 ((ar.maps.length, l) :: owned) := by
  have hmaps : (ar.put h m).2.maps = ar.maps ++ [some m] := rfl
  have hold : ∀ j < ar.maps.length, (ar.put h m).2.maps[j]? = ar.maps[j]? := fun j hj => by
    rw [hmaps, List.getElem?_append_left hj]
  have hids : ∀ j ∈ owned.map Prod.fst, j < ar.maps.length := by
    intro j hj
    obtain ⟨o, ho, rfl⟩ := List.mem_map.mp hj
    obtain ⟨m, hm, -⟩ := O.lists o ho
    exact (List.getElem?_eq_some_iff.mp hm).1
  have hle : ar.heap.used ≤ h.used := G.used ▸ Nat.le_add_right ..
  refine ⟨fun o ho => ?_, ?_, fun j m' hm' => ?_, ?_, fun a ha => O.fresh a (Nat.le_trans hle ha)⟩
  · rcases List.mem_cons.mp ho with rfl | ho
    · exact ⟨m, List.getElem?_concat_length, G.holds⟩
    · obtain ⟨m', hm', hl⟩ := O.lists o ho
      refine ⟨m', (hold _ (hids _ (List.mem_map_of_mem ho))).trans hm', hl.congr rfl fun a ha => ?_⟩
      exact congrArg Node.next (G.old a (O.taken ho ha).1)
  · exact List.nodup_cons.mpr ⟨fun h => absurd (hids _ h) (Nat.lt_irrefl _), O.ids⟩
  · rcases Nat.lt_or_ge j ar.maps.length with hj | hj
    · rw [hold j hj] at hm'
      exact List.mem_cons_of_mem _ (O.maps j m' hm')
    · have hlen := (List.getElem?_eq_some_iff.mp hm').1
      rw [hmaps, List.length_append, List.length_singleton] at hlen
      obtain rfl : j = ar.maps.length := Nat.le_antisymm (Nat.le_of_lt_succ hlen) hj
      exact List.mem_cons_self ..
  · have hnew : {a | a < h.used ∧ ar.freed a = false} =
        {a | a ∈ l} ∪ {a | a < ar.heap.used ∧ ar.freed a = false} := by
      ext a
      rw [Set.mem_union, Set.mem_ofPred_eq, Set.mem_ofPred_eq, Set.mem_ofPred_eq, G.mem_iff]
      constructor
      · rintro ⟨ha, hfreed⟩
        rcases Nat.lt_or_ge a ar.heap.used with hlt | hge
        · exact .inr ⟨hlt, hfreed⟩
        · exact .inl ⟨hge, ha⟩
      · rintro (⟨hge, ha⟩ | ⟨hlt, hfreed⟩)
        · exact ⟨ha, O.fresh a hge⟩
        · exact ⟨Nat.lt_of_lt_of_le hlt hle, hfreed⟩
    show Tiles _ {a | a < h.used ∧ ar.freed a = false}
    rw [hnew]
    refine O.entries.cons (Set.disjoint_left.mpr fun a ha ha' => ?_)
    exact absurd (G.mem_iff.mp ha).1 (Nat.not_le_of_lt ha'.1)

theorem mapFreeLoop_spec {head : Option Addr} {fuel : Nat} (hl : (ar.heap.links head).Holds l)
    (huse : ∀ a ∈ l, a < ar.heap.used ∧ ar.freed a = false) (hfuel : l.length < fuel) :
    mapFreeLoop fuel head ar =
      .ok { ar with freed := fun a => if a ∈ l then true else ar.freed a } := by
  have hnodup := hl.nodup
  induction l generalizing ar head fuel with
  | nil =>
    cases fuel with
    | zero => exact absurd hfuel (Nat.not_lt_zero _)
    | succ fuel =>
      obtain rfl : head = none := hl
      rfl
  | cons a l ih =>
    cases fuel with
    | zero => exact absurd hfuel (Nat.not_lt_zero _)
    | succ fuel =>
      obtain ⟨rfl, hrest⟩ := hl
      obtain ⟨hnot, hnodup⟩ := List.nodup_cons.mp hnodup
      obtain ⟨hlt, hfreed⟩ := huse a (List.mem_cons_self ..)
      let ar' : Arena := { ar with freed := Function.update ar.freed a true }
      have hrest : (ar'.heap.links (ar.heap.mem a).next).Holds l := hrest
      have hread : ¬ ar.freed a = true := by
        rw [hfreed]
        exact Bool.false_ne_true
      have hfree : ar.free a = .ok ar' := by
        unfold Arena.free
        rw [haltIf_neg (not_or.mpr ⟨Nat.not_le_of_lt hlt, hread⟩)]
        rfl
      rw [mapFreeLoop, haltIf_neg hread, ok_bind, hfree, ok_bind]
      refine (ih hrest (fun b hb => ?_) (Nat.lt_of_succ_lt_succ hfuel) hnodup).trans ?_
      · obtain ⟨hltb, hfreedb⟩ := huse b (List.mem_cons_of_mem _ hb)
        refine ⟨hltb, (Function.update_of_ne ?_ _ _).trans hfreedb⟩
        rintro rfl
        exact hnot hb
      · congr 2
        funext b
        show (if b ∈ l then true else Function.update ar.freed a true b) = _
        by_cases hbl : b ∈ l
        · rw [if_pos hbl, if_pos (List.mem_cons_of_mem a hbl)]
        · rw [if_neg hbl]
          by_cases hb : b = a
          · subst hb
            rw [Function.update_self, if_pos (List.mem_cons_self ..)]
          · rw [Function.update_of_ne hb, if_neg (List.not_mem_cons_of_ne_of_not_mem hb hbl)]

theorem Owned.mapFree (O : Owned ar ((i, l) :: owned)) :
    ∃ ar', Maps.mapFree i ar = .ok ar' ∧ Owned ar' owned ∧ ar'.heap = ar.heap ∧
      ar'.maps.length = ar.maps.length := by
  have hhead : (i, l) ∈ (i, l) :: owned := List.mem_cons_self ..
  obtain ⟨m, hm, C⟩ := O.chain hhead
  have hloop := mapFreeLoop_spec C.holds (fun a ha => O.taken hhead ha)
    (Nat.lt_succ_of_le C.length_le)
  refine ⟨⟨ar.heap, fun a => if a ∈ l then true else ar.freed a, ar.maps.set i none⟩, ?_, ?_, rfl,
    List.length_set⟩
  · unfold Maps.mapFree
    rw [hm, ok_bind, hloop, ok_bind]
    rfl
  obtain ⟨hi, hids⟩ := List.nodup_cons.mp O.ids
  have hne : ∀ j ∈ owned.map Prod.fst, j ≠ i := by
    rintro j hj rfl
    exact hi hj
  refine ⟨fun o ho => ?_, hids, fun j m' hm' => ?_, ?_, fun a ha => ?_⟩
  · obtain ⟨m', hm', hl⟩ := O.lists o (List.mem_cons_of_mem _ ho)
    exact ⟨m', (List.getElem?_set_ne (hne _ (List.mem_map_of_mem ho)).symm).trans hm', hl⟩
  · have hji : j ≠ i := by
      rintro rfl
      have hset : (ar.maps.set j none)[j]? = some (some m') := hm'
      rw [List.getElem?_set_self' ] at hset
      cases hget : ar.maps[j]? with
      | none => rw [hget] at hset; cases hset
      | some m => rw [hget] at hset; cases hset
    have hold : (ar.maps.set i none)[j]? = some (some m') := hm'
    rw [List.getElem?_set_ne hji.symm] at hold
    exact (List.mem_cons.mp (O.maps j m' hold)).resolve_left hji
  · have hleft := O.entries.tail
    convert hleft using 1
    ext a
    rw [Set.mem_sdiff, Set.mem_ofPred_eq, Set.mem_ofPred_eq, Set.mem_ofPred_eq]
    by_cases ha : a ∈ l
    · simp [ha]
    · simp [ha]
  · have hfreed := O.fresh a ha
    show (if a ∈ l then true else ar.freed a) = false
    rw [if_neg fun hal => absurd (O.taken hhead hal).1 (Nat.not_lt_of_le ha), hfreed]

theorem entriesLoop_spec {head : Option Addr} {fuel : Nat} (hl : (ar.heap.links head).Holds l)
    (huse : ∀ a ∈ l, ar.freed a = false) (hfuel : l.length < fuel) :
    entriesLoop fuel head ar = .ok (l.map fun a => (ar.heap.mem a).toMapEntry) := by
  induction l generalizing head fuel with
  | nil =>
    cases fuel with
    | zero => exact absurd hfuel (Nat.not_lt_zero _)
    | succ fuel =>
      obtain rfl : head = none := hl
      rfl
  | cons a l ih =>
    cases fuel with
    | zero => exact absurd hfuel (Nat.not_lt_zero _)
    | succ fuel =>
      obtain ⟨rfl, hrest⟩ := hl
      have hrest : (ar.heap.links (ar.heap.mem a).next).Holds l := hrest
      have hread : ¬ ar.freed a = true := by
        rw [huse a (List.mem_cons_self ..)]
        exact Bool.false_ne_true
      rw [entriesLoop, haltIf_neg hread, ok_bind,
        ih hrest (fun b hb => huse b (List.mem_cons_of_mem _ hb)) (Nat.lt_of_succ_lt_succ hfuel)]
      rfl

theorem Owned.entries_eq (O : Owned ar owned) {o : Addr × List Addr} (ho : o ∈ owned) :
    ar.entries o.1 = .ok (o.2.map fun a => (ar.heap.mem a).toMapEntry) := by
  obtain ⟨m, hm, C⟩ := O.chain ho
  unfold Arena.entries
  rw [hm, ok_bind]
  exact entriesLoop_spec C.holds (fun a ha => (O.taken ho ha).2) (Nat.lt_succ_of_le C.length_le)

end Owned
end Subcontexts.Maps
