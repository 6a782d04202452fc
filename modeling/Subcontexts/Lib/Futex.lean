import Mathlib.Data.Finset.Card
import Subcontexts.Lib.Trans

/-! Threads that sleep while a word has a value. The check is atomic with the sleep, and a thread
that is woken checks again. Over any type of threads and of values. -/

namespace Futex
variable {T α : Type*}

inductive Wait (α : Type*) where
  | out
  | checking (v : α)
  | asleep (v : α)
  deriving DecidableEq, Repr

def Wait.isAsleep : Wait α → Bool
  | .asleep _ => true
  | .out | .checking _ => false

def Wait.isChecking : Wait α → Bool
  | .checking _ => true
  | .out | .asleep _ => false

def Wait.check [DecidableEq α] (word : α) : Wait α → Wait α
  | .checking v => if word = v then .asleep v else .out
  | .out => .out
  | .asleep v => .asleep v

def Wait.woken : Wait α → Wait α
  | .asleep v => .checking v
  | .out => .out
  | .checking v => .checking v

/-- `woken` are the threads that a wakeup of at most `n` reaches. -/
def Wakes (n : Nat) (sleepers woken : Finset T) : Prop :=
  woken ⊆ sleepers ∧ woken.card = min n sleepers.card

instance [DecidableEq T] (n : Nat) (sleepers woken : Finset T) :
    Decidable (Wakes n sleepers woken) := inferInstanceAs (Decidable (_ ∧ _))

def wake [DecidableEq T] (woken : Finset T) (wait : T → Wait α) (t : T) : Wait α :=
  if t ∈ woken then (wait t).woken else wait t

/-- Every thread that is asleep sleeps on the value that the word has. -/
def Settled (word : α) (wait : T → Wait α) : Prop := ∀ t v, wait t = .asleep v → word = v

section Lemmas
variable {word : α} {wait : T → Wait α}

theorem Wait.woken_ne_asleep (w : Wait α) (v : α) : w.woken ≠ .asleep v := by
  cases w <;> nofun

theorem Wait.asleep_of_check [DecidableEq α] {w : Wait α} {v : α} (h : w.check word = .asleep v) :
    word = v ∨ w = .asleep v := by
  cases w with
  | out => cases h
  | checking u =>
    by_cases hu : word = u
    · rw [Wait.check, if_pos hu] at h
      exact .inl (hu.trans (Wait.asleep.inj h))
    · rw [Wait.check, if_neg hu] at h
      cases h
  | asleep u => exact .inr h

theorem Settled.of_none (h : ∀ t v, wait t ≠ .asleep v) : Settled word wait := fun t v ht =>
  absurd ht (h t v)

section Update
variable [DecidableEq T] {t : T}

theorem Settled.move (h : Settled word wait) {w : Wait α} (hw : ∀ v, w ≠ .asleep v) :
    Settled word (Function.update wait t w) := by
  intro u v hu
  obtain ⟨-, hu⟩ := Trans.of_update_of_not (P := (· = Wait.asleep v)) hu (hw v)
  exact h u v hu

theorem Settled.check [DecidableEq α] (h : Settled word wait) :
    Settled word (Function.update wait t ((wait t).check word)) := by
  intro u v hu
  rcases Trans.of_update (P := (· = Wait.asleep v)) hu with ⟨-, hnew⟩ | ⟨-, hold⟩
  · rcases Wait.asleep_of_check hnew with hv | hv
    · exact hv
    · exact h t v hv
  · exact h u v hold

theorem wake_asleep {woken : Finset T} {v : α} (h : wake woken wait t = .asleep v) :
    t ∉ woken ∧ wait t = .asleep v := by
  unfold wake at h
  split at h
  · exact absurd h (Wait.woken_ne_asleep _ v)
  · exact ⟨‹_›, h⟩

theorem Wakes.none_asleep {n : Nat} {sleepers woken : Finset T} (h : Wakes n sleepers woken)
    (hn : sleepers.card ≤ n) (hall : ∀ t v, wait t = .asleep v → t ∈ sleepers) (t : T) (v : α) :
    wake woken wait t ≠ .asleep v := by
  intro ht
  obtain ⟨hsub, hcard⟩ := h
  obtain ⟨hout, hasleep⟩ := wake_asleep ht
  rw [Nat.min_eq_right hn] at hcard
  have heq : woken = sleepers := Finset.eq_of_subset_of_card_le hsub (Nat.le_of_eq hcard.symm)
  exact hout (heq ▸ hall t v hasleep)

end Update
end Lemmas
end Futex
