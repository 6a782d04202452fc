import Mathlib.Data.List.Basic
import Mathlib.Tactic.Common

/-! The address space of a process as a list of mappings, the newest first, over any type of
backing objects. A mapping hides the parts of older ones that it covers. -/

structure Vma (β : Type*) where
  start : Nat
  len : Nat
  backing : β

abbrev AddressSpace (β : Type*) := List (Vma β)

namespace Vma
variable {β : Type*}

def Covers (v : Vma β) (x : Nat) : Prop := v.start ≤ x ∧ x < v.start + v.len

instance (v : Vma β) (x : Nat) : Decidable (v.Covers x) := inferInstanceAs (Decidable (_ ∧ _))

end Vma

namespace AddressSpace
variable {β : Type*} {as : AddressSpace β} {v : Vma β} {x : Nat}

/-- What is mapped at an address, and how far into it the address lies. -/
def cell (as : AddressSpace β) (x : Nat) : Option (β × Nat) :=
  (as.find? fun v => v.Covers x).map fun v => (v.backing, x - v.start)

def Free (as : AddressSpace β) (start len : Nat) : Prop :=
  ∀ v ∈ as, v.start + v.len ≤ start ∨ start + len ≤ v.start

instance (as : AddressSpace β) (start len : Nat) : Decidable (as.Free start len) :=
  inferInstanceAs (Decidable (∀ v ∈ as, _))

theorem cell_cons_of_covers (h : v.Covers x) :
    cell (v :: as) x = some (v.backing, x - v.start) := by
  simp [cell, h]

theorem cell_cons_of_not_covers (h : ¬ v.Covers x) : cell (v :: as) x = cell as x := by
  simp [cell, h]

theorem cell_ne_none (hv : v ∈ as) (hx : v.Covers x) : as.cell x ≠ none := by
  rw [cell, ne_eq, Option.map_eq_none_iff, List.find?_eq_none]
  exact fun h => h v hv (decide_eq_true hx)

theorem Free.cell_eq_none {start len : Nat} (h : as.Free start len) (hx : start ≤ x)
    (hx' : x < start + len) : as.cell x = none := by
  rw [cell, Option.map_eq_none_iff, List.find?_eq_none]
  intro v hv hc
  have hcov : v.Covers x := by simpa using hc
  obtain ⟨hlo, hhi⟩ := hcov
  rcases h v hv with hlt | hlt <;> omega

theorem Free.cell_cons {b : β × Nat} (h : as.Free v.start v.len) (hx : as.cell x = some b) :
    cell (v :: as) x = some b := by
  have hv : ¬ v.Covers x := by
    rintro ⟨hlo, hhi⟩
    rw [h.cell_eq_none hlo hhi] at hx
    cases hx
  rw [cell_cons_of_not_covers hv, hx]

end AddressSpace
