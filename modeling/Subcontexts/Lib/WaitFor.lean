import Mathlib.Logic.Relation

/-! Wait-for graphs: actors that hold and wait for locks, and the absence of cycles where locks are
taken in the order of a rank. -/

namespace WaitFor
variable {A L : Type*}

/-- An actor holds only locks of lower rank than the one it waits for. -/
def Ranked (holds waits : A → L → Prop) (rank : L → Nat) : Prop :=
  ∀ a l m, holds a l → waits a m → rank l < rank m

section Ranked
variable {holds waits : A → L → Prop} {rank : L → Nat} {waitsOn : A → A → Prop}

theorem Ranked.path (h : Ranked holds waits rank)
    (hw : ∀ a b, waitsOn a b → ∃ l, waits a l ∧ holds b l) {a b : A}
    (hp : Relation.TransGen waitsOn a b) :
    ∃ l m, waits a l ∧ holds b m ∧ rank l ≤ rank m := by
  induction hp with
  | single hab =>
    obtain ⟨l, hl, hb⟩ := hw _ _ hab
    exact ⟨l, l, hl, hb, Nat.le_refl _⟩
  | tail _ hbc ih =>
    obtain ⟨l, m, hl, hm, hle⟩ := ih
    obtain ⟨n, hn, hc⟩ := hw _ _ hbc
    exact ⟨l, n, hl, hc, Nat.le_trans hle (Nat.le_of_lt (h _ m n hm hn))⟩

end Ranked
end WaitFor
