import Subcontexts.Maps.Model

/-! The entry lists of maps in memory, and what adding a new struct at the end does to them. -/

namespace Subcontexts.Maps
variable {h h' : Heap} {head : Option Addr} {l : List Addr} {es : List MapEntry}

def Heap.links (h : Heap) (head : Option Addr) : Linked Addr := ⟨head, fun a => (h.mem a).next⟩

structure Chain (h : Heap) (head : Option Addr) (l : List Addr) (es : List MapEntry) : Prop where
  holds : (h.links head).Holds l
  taken : ∀ a ∈ l, a < h.used
  entries : l.map (fun a => (h.mem a).toMapEntry) = es

def Heap.Shows (h : Heap) (m : Map) (es : List MapEntry) : Prop := ∃ l, Chain h m.head l es

theorem Chain.nil : Chain h none [] [] := ⟨rfl, by simp, rfl⟩

theorem Chain.length_eq (C : Chain h head l es) : l.length = es.length := by
  rw [← C.entries, List.length_map]

theorem Chain.unique {l' : List Addr} {es' : List MapEntry} (C : Chain h head l es)
    (C' : Chain h head l' es') : es = es' := by
  rw [← C.entries, ← C'.entries, C.holds.unique C'.holds]

theorem Chain.frame (C : Chain h head l es) (hmem : ∀ a ∈ l, h'.mem a = h.mem a)
    (hused : h.used ≤ h'.used) : Chain h' head l es := by
  refine ⟨C.holds.congr rfl fun a ha => ?_, fun a ha => Nat.lt_of_lt_of_le (C.taken a ha) hused, ?_⟩
  · show (h'.mem a).next = (h.mem a).next
    rw [hmem a ha]
  · rw [← C.entries]
    apply List.map_congr_left
    intro a ha
    rw [hmem a ha]

section Append
variable {e : MapEntry} {a b : Addr}

theorem mem_alloc_self {n : Node} : (h.alloc n).2.mem h.used = n := Function.update_self ..

theorem mem_alloc_of_ne {n : Node} (hb : b ≠ h.used) : (h.alloc n).2.mem b = h.mem b :=
  Function.update_of_ne hb ..

theorem mem_setNext_of_ne {next : Option Addr} (hb : b ≠ a) : (h.setNext a next).mem b = h.mem b :=
  Function.update_of_ne hb ..

theorem mem_setNext_self {next : Option Addr} :
    (h.setNext a next).mem a = { h.mem a with next := next } := Function.update_self ..

theorem toMapEntry_setNext {next : Option Addr} :
    ((h.setNext a next).mem b).toMapEntry = (h.mem b).toMapEntry := by
  by_cases hb : b = a
  · subst b
    rw [mem_setNext_self]
  · rw [mem_setNext_of_ne hb]

theorem links_setNext {next : Option Addr} :
    (h.setNext a next).links head = (h.links head).set (some a) next := by
  unfold Heap.links Linked.set Heap.setNext
  congr 1
  exact Function.comp_update Node.next h.mem a _

theorem Chain.single : Chain (h.alloc ⟨e, none⟩).2 (some h.used) [h.used] [e] := by
  refine ⟨⟨rfl, ?_⟩, fun a ha => ?_, ?_⟩
  · exact congrArg Node.next mem_alloc_self
  · obtain rfl := List.mem_singleton.mp ha
    exact Nat.lt_succ_self _
  · exact congrArg (fun n => [n.toMapEntry]) mem_alloc_self

theorem Chain.append {curr : Addr} (C : Chain h head l es) (hcurr : l.getLast? = some curr) :
    Chain ((h.alloc ⟨e, none⟩).2.setNext curr (some h.used)) head (l ++ [h.used]) (es ++ [e]) := by
  have hfresh : ∀ a ∈ l, a ≠ h.used := fun a ha => Nat.ne_of_lt (C.taken a ha)
  have C' : Chain (h.alloc ⟨e, none⟩).2 head l es :=
    C.frame (fun a ha => mem_alloc_of_ne (hfresh a ha)) (Nat.le_succ _)
  have hset := (List.append_nil l).symm ▸ C'.holds
  refine ⟨?_, fun a ha => ?_, ?_⟩
  · rw [links_setNext, ← hcurr]
    apply hset.set
    · show some h.used = some h.used ∧ ((h.alloc ⟨e, none⟩).2.mem h.used).next = none
      rw [mem_alloc_self]
      exact ⟨rfl, rfl⟩
    · intro b hb hlast
      obtain rfl := List.mem_singleton.mp hb
      exact hfresh _ (List.mem_of_getLast? hlast) rfl
  · rcases List.mem_append.mp ha with ha | ha
    · exact Nat.lt_succ_of_lt (C.taken a ha)
    · obtain rfl := List.mem_singleton.mp ha
      exact Nat.lt_succ_self _
  · rw [List.map_append, List.map_singleton, toMapEntry_setNext, mem_alloc_self, ← C'.entries]
    simp only [toMapEntry_setNext]

end Append
end Subcontexts.Maps
