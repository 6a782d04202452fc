import Mathlib.Algebra.Group.Int.Defs
import Mathlib.Algebra.Group.Nat.Defs
import Mathlib.Tactic.Common

/-! What every part of the C sources rests on: calls that do not return to their caller, 64-bit
unsigned arithmetic and the page size. -/

namespace Subcontexts

inductive Halt where
  | assertion
  | exit (code : Int)
  | todo
  | blocked
  | fault
  | fuel
  deriving DecidableEq, Repr

/-- `assert(c)`. -/
def check (c : Prop) [Decidable c] : Except Halt Unit := if c then .ok () else .error .assertion

theorem check_pos {c : Prop} [Decidable c] (h : c) : check c = .ok () := if_pos h

theorem check_neg {c : Prop} [Decidable c] (h : ¬ c) : check c = .error .assertion := if_neg h

theorem check_eq_ok {c : Prop} [Decidable c] {u : Unit} : check c = .ok u ↔ c := by
  unfold check
  split <;> simp_all

theorem check_eq_error {c : Prop} [Decidable c] {e : Halt} :
    check c = .error e ↔ ¬ c ∧ e = .assertion := by
  unfold check
  split <;> simp_all [eq_comm]

/-- `if (c)` before a call that does not return. -/
def haltIf (e : Halt) (c : Prop) [Decidable c] : Except Halt Unit := if c then .error e else .ok ()

theorem haltIf_neg {e : Halt} {c : Prop} [Decidable c] (h : ¬ c) : haltIf e c = .ok () := if_neg h

theorem haltIf_eq_ok {e : Halt} {c : Prop} [Decidable c] {u : Unit} :
    haltIf e c = .ok u ↔ ¬ c := by
  unfold haltIf
  split <;> simp_all

section Bind
variable {α β : Type} {f : α → Except Halt β}

@[simp] theorem ok_bind (a : α) : (Except.ok a >>= f) = f a := rfl

@[simp] theorem error_bind (e : Halt) : ((Except.error e : Except Halt α) >>= f) = .error e := rfl

theorem bind_eq_ok {x : Except Halt α} {b : β} :
    (x >>= f) = .ok b ↔ ∃ a, x = .ok a ∧ f a = .ok b := by
  cases x <;> simp

theorem bind_eq_error {x : Except Halt α} {e : Halt} :
    (x >>= f) = .error e ↔ x = .error e ∨ ∃ a, x = .ok a ∧ f a = .error e := by
  cases x <;> simp

end Bind

def u64 (n : Nat) : Nat := n % 2 ^ 64

theorem u64_of_lt {n : Nat} (h : n < 2 ^ 64) : u64 n = n := Nat.mod_eq_of_lt h

def sub64 (a b : Nat) : Nat := u64 (a + 2 ^ 64 - b)

theorem sub64_of_le {a b : Nat} (hb : b ≤ a) (ha : a < 2 ^ 64) : sub64 a b = a - b := by
  unfold sub64 u64
  omega

/-- What `getpagesize()` promises: a positive `int` whose multiples are aligned for a `u64`. -/
structure PageSize where
  bytes : Nat
  pos : 0 < bytes
  dvd : 8 ∣ bytes
  lt : bytes < 2 ^ 31

def page4096 : PageSize := ⟨4096, by decide, by decide, by decide⟩

end Subcontexts
