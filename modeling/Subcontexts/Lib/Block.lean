import Mathlib.Logic.Function.Basic

/-! Blocks of allocated memory with room for a number of entries, over any type of entries. What
an entry holds before it is written is arbitrary; an access outside the block gives `none`. -/

structure Block (α : Type*) where
  room : Nat
  entry : Nat → α

namespace Block
variable {α : Type*} {b c : Block α} {i j room : Nat} {a : α}

def get? (b : Block α) (i : Nat) : Option α :=
  if i < b.room then some (b.entry i) else none

def put (b : Block α) (i : Nat) (a : α) : Block α := { b with entry := Function.update b.entry i a }

def set? (b : Block α) (i : Nat) (a : α) : Option (Block α) :=
  if i < b.room then some (b.put i a) else none

/-- The common prefix of the entries is kept; `fresh` is what the rest of the new room holds. -/
def realloc (b : Block α) (room : Nat) (fresh : Nat → α) : Block α :=
  ⟨room, fun i => if i < min b.room room then b.entry i else fresh i⟩

def write? (b : Block α) (i : Nat) : List α → Option (Block α)
  | [] => some b
  | a :: as => (b.set? i a).bind fun c => c.write? (i + 1) as

@[simp] theorem room_put : (b.put i a).room = b.room := rfl

@[simp] theorem entry_put_self : (b.put i a).entry i = a := Function.update_self ..

theorem entry_put_of_ne (h : j ≠ i) : (b.put i a).entry j = b.entry j :=
  Function.update_of_ne h ..

theorem entry_realloc (fresh : Nat → α) (h : i < b.room) (h' : i < room) :
    (b.realloc room fresh).entry i = b.entry i := if_pos (by omega)

theorem get?_of_lt (h : i < b.room) : b.get? i = some (b.entry i) := if_pos h

theorem set?_of_lt (h : i < b.room) : b.set? i a = some (b.put i a) := if_pos h

theorem set?_of_le (h : b.room ≤ i) : b.set? i a = none := if_neg (by omega)

/-- What consecutive writes leave: the written entries where they were put, the rest untouched. -/
theorem write?_of_le (as : List α) (h : i + as.length ≤ b.room) :
    ∃ c, b.write? i as = some c ∧ c.room = b.room ∧
      (∀ k (hk : k < as.length), c.entry (i + k) = as[k]) ∧
      ∀ j, j < i ∨ i + as.length ≤ j → c.entry j = b.entry j := by
  induction as generalizing b i with
  | nil => exact ⟨b, rfl, rfl, fun k hk => absurd hk (Nat.not_lt_zero k), fun _ _ => rfl⟩
  | cons a as ih =>
    rw [List.length_cons] at h
    obtain ⟨c, hc, hroom, hin, hout⟩ :=
      ih (b := b.put i a) (i := i + 1) (by rw [room_put]; omega)
    refine ⟨c, ?_, hroom, fun k hk => ?_, fun j hj => ?_⟩
    · rw [write?, set?_of_lt (by omega)]
      exact hc
    · cases k with
      | zero =>
        rw [Nat.add_zero, hout i (by omega), entry_put_self]
        rfl
      | succ k =>
        rw [← Nat.add_assoc, Nat.add_right_comm]
        exact hin k (Nat.lt_of_succ_lt_succ hk)
    · rw [List.length_cons] at hj
      rw [hout j (by omega), entry_put_of_ne (by omega)]

end Block
