import Mathlib.Logic.Function.Basic
import Mathlib.Tactic.Common

/-! Programs that load and store bytes, on a plain memory and on a machine where an access may fault:
then a handler runs, and the access is tried again. A handler that makes each access possible and
changes no byte cannot be noticed by the program. -/

namespace Demand

inductive Prog (α : Type) where
  | done (a : α)
  | load (x : Nat) (next : Nat → Prog α)
  | store (x b : Nat) (next : Prog α)

namespace Prog
variable {α : Type}

def run : Prog α → (Nat → Nat) → α × (Nat → Nat)
  | .done a, m => (a, m)
  | .load x next, m => (next (m x)).run m
  | .store x b next, m => next.run (Function.update m x b)

/-- The accesses of that run; `true` is for a store. -/
def accesses : Prog α → (Nat → Nat) → List (Nat × Bool)
  | .done _, _ => []
  | .load x next, m => (x, false) :: (next (m x)).accesses m
  | .store x b next, m => (x, true) :: next.accesses (Function.update m x b)

end Prog

/-- A machine whose accesses may fault; `handle` is `none` where the program is killed. -/
structure Machine (σ : Type) where
  load : σ → Nat → Option Nat
  store : σ → Nat → Nat → Option σ
  handle : σ → Nat → Bool → Option σ

namespace Machine
variable {σ α : Type} (M : Machine σ)

/-- The run of a program in a number of steps: its value, the state it leaves, and where it has
faulted. -/
def exec : Nat → Prog α → σ → Option (α × σ × List Nat)
  | _, .done a, s => some (a, s, [])
  | 0, .load .., _ => none
  | 0, .store .., _ => none
  | n + 1, .load x next, s =>
    match M.load s x with
    | some b => exec n (next b) s
    | none => (M.handle s x false).bind fun s' =>
      (exec n (.load x next) s').map fun r => (r.1, r.2.1, x :: r.2.2)
  | n + 1, .store x b next, s =>
    match M.store s x b with
    | some s' => exec n next s'
    | none => (M.handle s x true).bind fun s' =>
      (exec n (.store x b next) s').map fun r => (r.1, r.2.1, x :: r.2.2)

section Exec
variable {M} {s s' : σ} {x b n : Nat} {next : Nat → Prog α} {rest : Prog α}

theorem exec_load (h : M.load s x = some b) : M.exec (n + 1) (.load x next) s = M.exec n (next b) s := by
  rw [exec, h]

theorem exec_load_fault (h : M.load s x = none) (hh : M.handle s x false = some s') :
    M.exec (n + 1) (.load x next) s =
      (M.exec n (.load x next) s').map fun r => (r.1, r.2.1, x :: r.2.2) := by
  rw [exec, h, hh]
  rfl

theorem exec_store (h : M.store s x b = some s') :
    M.exec (n + 1) (.store x b rest) s = M.exec n rest s' := by
  rw [exec, h]

theorem exec_store_fault (h : M.store s x b = none) (hh : M.handle s x true = some s') :
    M.exec (n + 1) (.store x b rest) s =
      (M.exec n (.store x b rest) s').map fun r => (r.1, r.2.1, x :: r.2.2) := by
  rw [exec, h, hh]
  rfl

end Exec

/-- The states of `R` show a memory, and the handler makes the accesses of `ok` possible. -/
structure Serves (ok : Nat → Bool → Prop) (R : σ → (Nat → Nat) → Prop) : Prop where
  load : ∀ s m x b, R s m → ok x false → M.load s x = some b → b = m x
  store : ∀ s m x b s', R s m → ok x true → M.store s x b = some s' → R s' (Function.update m x b)
  handleLoad : ∀ s m x, R s m → ok x false → M.load s x = none →
    ∃ s', M.handle s x false = some s' ∧ R s' m ∧ M.load s' x ≠ none
  handleStore : ∀ s m x b, R s m → ok x true → M.store s x b = none →
    ∃ s', M.handle s x true = some s' ∧ R s' m ∧ M.store s' x b ≠ none

variable {M} {ok : Nat → Bool → Prop} {R : σ → (Nat → Nat) → Prop}

/-- A program comes to its end with one fault an access at most, and as on a plain memory. -/
theorem Serves.exec (V : M.Serves ok R) {p : Prog α} {s : σ} {m : Nat → Nat} (h : R s m)
    (hok : ∀ c ∈ p.accesses m, ok c.1 c.2) {fuel : Nat} (hfuel : 2 * (p.accesses m).length ≤ fuel) :
    ∃ t faults, M.exec fuel p s = some ((p.run m).1, t, faults) ∧ R t (p.run m).2 ∧
      faults.length ≤ (p.accesses m).length := by
  induction p generalizing s m fuel with
  | done a => exact ⟨s, [], by rw [Machine.exec]; rfl, h, Nat.le_refl _⟩
  | load x next ih =>
    rw [Prog.accesses, List.forall_mem_cons] at hok
    rw [Prog.accesses, List.length_cons] at hfuel ⊢
    obtain ⟨n, rfl⟩ : ∃ n, fuel = n + 2 := ⟨fuel - 2, by omega⟩
    have hgo : ∀ s', R s' m → ∀ b, M.load s' x = some b → ∀ k, n ≤ k →
        ∃ t faults, M.exec (k + 1) (.load x next) s' = some (((next (m x)).run m).1, t, faults) ∧
          R t ((next (m x)).run m).2 ∧ faults.length ≤ ((next (m x)).accesses m).length := by
      intro s' hs' b hb k hk
      obtain rfl := V.load s' m x b hs' hok.1 hb
      rw [exec_load hb]
      exact ih _ hs' hok.2 (by omega)
    cases hload : M.load s x with
    | some b =>
      obtain ⟨t, faults, hrun, ht, hlen⟩ := hgo s h b hload (n + 1) (Nat.le_succ n)
      exact ⟨t, faults, hrun, ht, Nat.le_succ_of_le hlen⟩
    | none =>
      obtain ⟨s', hhandle, hs', hsome⟩ := V.handleLoad s m x h hok.1 hload
      obtain ⟨b, hb⟩ := Option.ne_none_iff_exists'.mp hsome
      obtain ⟨t, faults, hrun, ht, hlen⟩ := hgo s' hs' b hb n (Nat.le_refl n)
      refine ⟨t, x :: faults, ?_, ht, Nat.succ_le_succ hlen⟩
      rw [exec_load_fault hload hhandle, hrun]
      rfl
  | store x b next ih =>
    rw [Prog.accesses, List.forall_mem_cons] at hok
    rw [Prog.accesses, List.length_cons] at hfuel ⊢
    obtain ⟨n, rfl⟩ : ∃ n, fuel = n + 2 := ⟨fuel - 2, by omega⟩
    have hgo : ∀ s', R s' m → ∀ s'', M.store s' x b = some s'' → ∀ k, n ≤ k →
        ∃ t faults, M.exec (k + 1) (.store x b next) s' =
            some ((next.run (Function.update m x b)).1, t, faults) ∧
          R t (next.run (Function.update m x b)).2 ∧
          faults.length ≤ (next.accesses (Function.update m x b)).length := by
      intro s' hs' s'' hb k hk
      rw [exec_store hb]
      exact ih (V.store s' m x b s'' hs' hok.1 hb) hok.2 (by omega)
    cases hstore : M.store s x b with
    | some s'' =>
      obtain ⟨t, faults, hrun, ht, hlen⟩ := hgo s h s'' hstore (n + 1) (Nat.le_succ n)
      exact ⟨t, faults, hrun, ht, Nat.le_succ_of_le hlen⟩
    | none =>
      obtain ⟨s', hhandle, hs', hsome⟩ := V.handleStore s m x b h hok.1 hstore
      obtain ⟨s'', hb⟩ := Option.ne_none_iff_exists'.mp hsome
      obtain ⟨t, faults, hrun, ht, hlen⟩ := hgo s' hs' s'' hb n (Nat.le_refl n)
      refine ⟨t, x :: faults, ?_, ht, Nat.succ_le_succ hlen⟩
      rw [exec_store_fault hstore hhandle, hrun]
      rfl

end Machine
end Demand
