import Mathlib.Logic.Function.Basic
import Mathlib.Logic.Relation

/-! Labelled transition systems: reachable states, the invariant rule, runs all of whose steps
meet a condition on the state before the step, execution of a list of labels, and the local states
of the parties where one of them moves. -/

namespace Trans
variable {S L : Type*}

inductive Reach (init : S → Prop) (step : S → L → S → Prop) : S → Prop where
  | init {s : S} : init s → Reach init step s
  | step {s : S} {l : L} {t : S} : Reach init step s → step s l t → Reach init step t

/-- The steps of a system that meet `ok` in the state they leave. -/
def Guarded (ok : S → L → Prop) (step : S → L → S → Prop) : S → L → S → Prop :=
  fun s l t => ok s l ∧ step s l t

def ofFun (f : S → L → Option S) : S → L → S → Prop := fun s l t => f s l = some t

def exec (f : S → L → Option S) : List L → S → Option S
  | [], s => some s
  | l :: ls, s => (f s l).bind (exec f ls)

section Reach
variable {init : S → Prop} {step : S → L → S → Prop}

theorem Reach.inv {I : S → Prop} (h0 : ∀ s, init s → I s)
    (hstep : ∀ s l t, I s → step s l t → I t) {s : S} (h : Reach init step s) : I s := by
  induction h with
  | init hs => exact h0 _ hs
  | step _ hst ih => exact hstep _ _ _ ih hst

/-- The invariant rule where the step may also use that its source is reachable. -/
theorem Reach.inv_reach {I : S → Prop} (h0 : ∀ s, init s → I s)
    (hstep : ∀ s l t, Reach init step s → I s → step s l t → I t) {s : S}
    (h : Reach init step s) : I s := by
  induction h with
  | init hs => exact h0 _ hs
  | step hr hst ih => exact hstep _ _ _ hr ih hst

theorem Reach.mono {init' : S → Prop} {step' : S → L → S → Prop} (hi : ∀ s, init s → init' s)
    (hs : ∀ s l t, step s l t → step' s l t) {s : S} (h : Reach init step s) :
    Reach init' step' s := by
  induction h with
  | init h0 => exact .init (hi _ h0)
  | step _ hst ih => exact .step ih (hs _ _ _ hst)

theorem Reach.of_guarded {ok : S → L → Prop} {s : S} (h : Reach init (Guarded ok step) s) :
    Reach init step s :=
  h.mono (fun _ h => h) (fun _ _ _ h => h.2)

theorem Reach.trans {s t : S} (hs : Reach init step s) (ht : Reach (· = s) step t) :
    Reach init step t := by
  induction ht with
  | init h => exact h ▸ hs
  | step _ hst ih => exact .step ih hst

end Reach

section Exec
variable {init : S → Prop} {f : S → L → Option S}

theorem exec_cons (l : L) (ls : List L) (s : S) : exec f (l :: ls) s = (f s l).bind (exec f ls) :=
  rfl

theorem Reach.of_exec {ls : List L} {s t : S} (hs : Reach init (ofFun f) s)
    (h : exec f ls s = some t) : Reach init (ofFun f) t := by
  induction ls generalizing s with
  | nil =>
    obtain rfl : s = t := Option.some.inj h
    exact hs
  | cons l ls ih =>
    rw [exec_cons, Option.bind_eq_some_iff] at h
    obtain ⟨u, hu, ht⟩ := h
    exact ih (.step hs hu) ht

theorem Reach.of_exec_guarded {ok : S → L → Prop} {ls : List L} {s t : S}
    (hs : Reach init (Guarded ok (ofFun f)) s) (hok : ∀ l ∈ ls, ∀ s, ok s l)
    (h : exec f ls s = some t) : Reach init (Guarded ok (ofFun f)) t := by
  induction ls generalizing s with
  | nil =>
    obtain rfl : s = t := Option.some.inj h
    exact hs
  | cons l ls ih =>
    rw [List.forall_mem_cons] at hok
    rw [exec_cons, Option.bind_eq_some_iff] at h
    obtain ⟨u, hu, ht⟩ := h
    exact ih (.step hs ⟨hok.1 s, hu⟩) hok.2 ht

def guard (ok : S → L → Prop) [∀ s l, Decidable (ok s l)] (f : S → L → Option S) :
    S → L → Option S := fun s l => if ok s l then f s l else none

theorem Reach.of_exec_guard {ok : S → L → Prop} [∀ s l, Decidable (ok s l)] {ls : List L} {s t : S}
    (hs : Reach init (Guarded ok (ofFun f)) s) (h : exec (guard ok f) ls s = some t) :
    Reach init (Guarded ok (ofFun f)) t := by
  induction ls generalizing s with
  | nil =>
    obtain rfl : s = t := Option.some.inj h
    exact hs
  | cons l ls ih =>
    rw [exec_cons, Option.bind_eq_some_iff] at h
    obtain ⟨u, hu, ht⟩ := h
    unfold guard at hu
    split at hu
    · exact ih (.step hs ⟨‹_›, hu⟩) ht
    · cases hu

end Exec

section Run
variable {init : S → Prop} {step : S → L → S → Prop} {σ : Nat → S} {α : Nat → L}

structure Run (init : S → Prop) (step : S → L → S → Prop) (σ : Nat → S) (α : Nat → L) : Prop where
  init : init (σ 0)
  step : ∀ n, step (σ n) (α n) (σ (n + 1))

/-- The states of the run that goes through the labels of a list, and then on with `e`. -/
def follow (f : S → L → Option S) (e : L) : List L → S → Nat → S
  | _, s, 0 => s
  | ls, s, n + 1 => follow f e ls.tail ((f s (ls.headD e)).getD s) n

theorem exec_next {f : S → L → Option S} {l : L} {ls : List L} {s t : S}
    (h : exec f (l :: ls) s = some t) :
    f s l = some ((f s l).getD s) ∧ exec f ls ((f s l).getD s) = some t := by
  rw [exec_cons, Option.bind_eq_some_iff] at h
  obtain ⟨u, hu, ht⟩ := h
  rw [hu]
  exact ⟨rfl, ht⟩

theorem Run.of_exec {f : S → L → Option S} {e : L} {ls : List L} {s t : S} (hs : init s)
    (he : ∀ s, ∃ t, f s e = some t) (h : exec f ls s = some t) :
    Run init (ofFun f) (follow f e ls s) fun n => ls.getD n e := by
  refine ⟨hs, fun n => ?_⟩
  clear hs
  induction n generalizing ls s t with
  | zero =>
    cases ls with
    | nil =>
      obtain ⟨u, hu⟩ := he s
      show f s e = some ((f s e).getD s)
      rw [hu]
      rfl
    | cons l ls => exact (exec_next h).1
  | succ n ih =>
    cases ls with
    | nil => exact @ih [] ((f s e).getD s) _ rfl
    | cons l ls => exact ih (exec_next h).2

theorem follow_after {f : S → L → Option S} {e : L} {ls : List L} {s t : S} {P : S → Prop}
    (hP : ∀ s, P s → P ((f s e).getD s)) (h : exec f ls s = some t) (ht : P t) {n : Nat}
    (hn : ls.length ≤ n) : P (follow f e ls s n) := by
  induction n generalizing ls s t with
  | zero =>
    obtain rfl := List.length_eq_zero_iff.mp (Nat.le_zero.mp hn)
    obtain rfl := Option.some.inj h
    exact ht
  | succ n ih =>
    cases ls with
    | nil =>
      obtain rfl := Option.some.inj h
      exact @ih [] _ _ rfl (hP s ht) (Nat.zero_le n)
    | cons l ls => exact ih (exec_next h).2 ht (Nat.le_of_succ_le_succ hn)

/-- What a party works on is done some time if no step sets it back, each of its own steps brings it
forward, and it goes on taking steps until then. -/
theorem eventually_of_rank {done : S → Prop} {rank : S → Nat} {mine : Nat → Prop}
    (hstep : ∀ n, ¬ done (σ n) → ¬ done (σ (n + 1)) → rank (σ (n + 1)) ≤ rank (σ n))
    (hmine : ∀ n, mine n → ¬ done (σ n) → ¬ done (σ (n + 1)) → rank (σ (n + 1)) < rank (σ n))
    (hfair : ∀ n, (∀ m ≥ n, ¬ done (σ m)) → ∃ m ≥ n, mine m) (n : Nat) :
    ∃ m ≥ n, done (σ m) := by
  by_contra hnever
  have hopen : ∀ m ≥ n, ¬ done (σ m) := fun m hm hdone => hnever ⟨m, hm, hdone⟩
  have hmono : ∀ m ≥ n, ∀ k ≥ m, rank (σ k) ≤ rank (σ m) := by
    intro m hm k hk
    induction hk with
    | refl => exact Nat.le_refl _
    | @step k hk ih =>
      have hn : n ≤ k := Nat.le_trans hm hk
      exact Nat.le_trans (hstep k (hopen k hn) (hopen _ (Nat.le_succ_of_le hn))) ih
  have hfalls : ∀ r m, m ≥ n → rank (σ m) = r → False := by
    intro r
    induction r using Nat.strongRecOn with
    | ind r ih =>
      intro m hm hr
      obtain ⟨k, hk, hmoved⟩ := hfair m fun k hk => hopen k (Nat.le_trans hm hk)
      have hn := Nat.le_trans hm hk
      apply ih (rank (σ (k + 1))) _ (k + 1) (Nat.le_succ_of_le hn) rfl
      rw [← hr]
      apply Nat.lt_of_lt_of_le
      · exact hmine k hmoved (hopen k hn) (hopen _ (Nat.le_succ_of_le hn))
      · exact hmono m hm k hk
  exact hfalls _ n (Nat.le_refl _) rfl

end Run

section Update
variable {ι β : Type*} [DecidableEq ι] {f : ι → β} {i j : ι} {b : β} {P : β → Prop}

theorem of_update (h : P (Function.update f i b j)) : j = i ∧ P b ∨ j ≠ i ∧ P (f j) := by
  by_cases hj : j = i
  · subst j
    rw [Function.update_self] at h
    exact .inl ⟨rfl, h⟩
  · rw [Function.update_of_ne hj] at h
    exact .inr ⟨hj, h⟩

theorem of_update_of_not (h : P (Function.update f i b j)) (hb : ¬ P b) : j ≠ i ∧ P (f j) := by
  rcases of_update h with ⟨-, hnew⟩ | hold
  · exact absurd hnew hb
  · exact hold

end Update
end Trans
