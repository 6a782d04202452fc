import Mathlib.Data.List.Basic
import Mathlib.Tactic.Common

/-! The code of one thread over a state it shares, with the locks it holds. It may end early, and the
state and the locks at that point are known. The other threads give up every lock some time, so a
thread waits for ever only for a lock that it holds itself. -/

namespace Holding

/-- How a lock is held; a thread that holds it in a shared way may take it recursively. -/
inductive Mode where
  | shared
  | sharedRecursive
  | exclusive
  deriving DecidableEq, Repr

structure Thread (σ ℓ : Type) where
  state : σ
  held : List (ℓ × Mode)

/-- Code that returns an `α`, or ends early with an `ε`. -/
abbrev Prog (ε σ ℓ α : Type) : Type := ExceptT ε (StateM (Thread σ ℓ)) α

variable {ε σ ℓ α β : Type}

def Prog.exec (p : Prog ε σ ℓ α) (t : Thread σ ℓ) : Except ε α × Thread σ ℓ := p.run.run t

def fetch : Prog ε σ ℓ σ := ExceptT.mk fun t => (.ok t.state, t)

def store (s : σ) : Prog ε σ ℓ Unit := ExceptT.mk fun t => (.ok (), { t with state := s })

def call (x : Except ε α) : Prog ε σ ℓ α := ExceptT.mk fun t => (x, t)

section Locks

def Free (held : List (ℓ × Mode)) (x : ℓ) : Mode → Prop
  | .exclusive => ∀ m, (x, m) ∉ held
  | .shared | .sharedRecursive => (x, .exclusive) ∉ held

theorem free_nil (x : ℓ) (m : Mode) : Free [] x m := by
  cases m with
  | shared => exact List.not_mem_nil
  | sharedRecursive => exact List.not_mem_nil
  | exclusive => exact fun _ => List.not_mem_nil

variable [DecidableEq ℓ]

instance (held : List (ℓ × Mode)) (x : ℓ) : DecidablePred (Free held x)
  | .exclusive => decidable_of_iff (∀ y ∈ held, y.1 ≠ x)
      ⟨fun h _ hm => h _ hm rfl, fun h y hy hx => h y.2 (hx ▸ hy)⟩
  | .shared | .sharedRecursive => inferInstanceAs (Decidable (_ ∉ held))

/-- `stuck` is how a thread ends that waits for itself. -/
def lock (stuck : ε) (m : Mode) (x : ℓ) : Prog ε σ ℓ Unit := ExceptT.mk fun t =>
  if Free t.held x m then (.ok (), { t with held := (x, m) :: t.held }) else (.error stuck, t)

/-- The release of a lock that the thread does not hold is without effect on its other locks. -/
def unlock (m : Mode) (x : ℓ) : Prog ε σ ℓ Unit := ExceptT.mk fun t =>
  (.ok (), { t with held := t.held.erase (x, m) })

def downgrade (x : ℓ) : Prog ε σ ℓ Unit := ExceptT.mk fun t =>
  (.ok (), { t with held := (x, .shared) :: t.held.erase (x, .exclusive) })

end Locks

section Exec
variable {p : Prog ε σ ℓ α} {f : α → Prog ε σ ℓ β} {t u : Thread σ ℓ} {a : α} {b : β} {e : ε}

@[simp] theorem exec_pure : (pure a : Prog ε σ ℓ α).exec t = (.ok a, t) := rfl

theorem exec_pure_eq_ok {a' : α} :
    (pure a : Prog ε σ ℓ α).exec t = (.ok a', u) ↔ a = a' ∧ t = u := by
  rw [exec_pure, Prod.mk.injEq, Except.ok.injEq]

@[simp] theorem exec_throw : (throw e : Prog ε σ ℓ α).exec t = (.error e, t) := rfl

@[simp] theorem exec_fetch : (fetch : Prog ε σ ℓ σ).exec t = (.ok t.state, t) := rfl

@[simp] theorem exec_store {s : σ} :
    (store s : Prog ε σ ℓ Unit).exec t = (.ok (), { t with state := s }) := rfl

@[simp] theorem exec_call {x : Except ε α} :
    (call x : Prog ε σ ℓ α).exec t = (x, t) := rfl

theorem exec_bind : (p >>= f).exec t =
    match p.exec t with
    | (.ok a, u) => (f a).exec u
    | (.error e, u) => (.error e, u) := by
  unfold Prog.exec
  rw [ExceptT.run_bind, StateT.run_bind]
  rcases p.run.run t with ⟨e | a, u⟩
  · rfl
  · rfl

theorem exec_bind_ok (h : p.exec t = (.ok a, u)) : (p >>= f).exec t = (f a).exec u := by
  rw [exec_bind, h]

theorem exec_bind_error (h : p.exec t = (.error e, u)) : (p >>= f).exec t = (.error e, u) := by
  rw [exec_bind, h]

theorem exec_bind_eq_ok : (p >>= f).exec t = (.ok b, u) ↔
    ∃ a t', p.exec t = (.ok a, t') ∧ (f a).exec t' = (.ok b, u) := by
  rw [exec_bind]
  rcases p.exec t with ⟨e | a, t'⟩
  · simp
  · simp

@[simp] theorem exec_fetch_bind {f : σ → Prog ε σ ℓ β} :
    (fetch >>= f).exec t = (f t.state).exec t := rfl

@[simp] theorem exec_store_bind {s : σ} {f : Unit → Prog ε σ ℓ β} :
    (store s >>= f).exec t = (f ()).exec { t with state := s } := rfl

@[simp] theorem exec_call_ok_bind : (call (.ok a) >>= f).exec t = (f a).exec t := rfl

@[simp] theorem exec_call_error_bind :
    (call (.error e) >>= f).exec t = (.error e, t) := rfl

theorem exec_call_bind_eq_ok {y : Except ε α} : (call y >>= f).exec t = (.ok b, u) ↔
    ∃ a, y = .ok a ∧ (f a).exec t = (.ok b, u) := by
  cases y <;> simp

variable [DecidableEq ℓ] {m : Mode} {x : ℓ}

theorem exec_lock (h : Free t.held x m) :
    (lock e m x : Prog ε σ ℓ Unit).exec t = (.ok (), { t with held := (x, m) :: t.held }) :=
  if_pos h

theorem exec_lock_stuck (h : ¬ Free t.held x m) :
    (lock e m x : Prog ε σ ℓ Unit).exec t = (.error e, t) := if_neg h

theorem exec_lock_eq_ok :
    (lock e m x : Prog ε σ ℓ Unit).exec t = (.ok (), u) ↔
      Free t.held x m ∧ u = { t with held := (x, m) :: t.held } := by
  unfold lock Prog.exec
  constructor
  · intro h
    by_cases hfree : Free t.held x m
    · have h := (exec_lock (e := e) hfree).symm.trans h
      exact ⟨hfree, (Prod.mk.inj h).2.symm⟩
    · have h := (exec_lock_stuck (e := e) hfree).symm.trans h
      cases (Prod.mk.inj h).1
  · rintro ⟨hfree, rfl⟩
    exact exec_lock hfree

theorem exec_lock_bind_eq_ok {f : Unit → Prog ε σ ℓ β} :
    (lock e m x >>= f).exec t = (.ok b, u) ↔
      Free t.held x m ∧ (f ()).exec { t with held := (x, m) :: t.held } = (.ok b, u) := by
  rw [exec_bind_eq_ok]
  constructor
  · rintro ⟨_, t', hlock, h⟩
    obtain ⟨hfree, rfl⟩ := exec_lock_eq_ok.mp hlock
    exact ⟨hfree, h⟩
  · rintro ⟨hfree, h⟩
    exact ⟨(), _, exec_lock hfree, h⟩

@[simp] theorem exec_unlock_bind {f : Unit → Prog ε σ ℓ β} :
    (unlock m x >>= f).exec t = (f ()).exec { t with held := t.held.erase (x, m) } := rfl

@[simp] theorem exec_unlock :
    (unlock m x : Prog ε σ ℓ Unit).exec t = (.ok (), { t with held := t.held.erase (x, m) }) := rfl

theorem erase_handed (x y : ℓ × Mode) (held : List (ℓ × Mode)) :
    (x :: y :: held).erase y = x :: held := by
  by_cases hxy : x = y
  · rw [hxy, List.erase_cons_head]
  · rw [List.erase_cons_tail (beq_eq_false_iff_ne.mpr hxy ▸ Bool.false_ne_true),
      List.erase_cons_head]

@[simp] theorem exec_downgrade : (downgrade x : Prog ε σ ℓ Unit).exec t =
    (.ok (), { t with held := (x, .shared) :: t.held.erase (x, .exclusive) }) := rfl

end Exec

section Reads

def Reads (p : Prog ε σ ℓ α) : Prop := ∀ t, (p.exec t).2.state = t.state

namespace Reads
variable {p : Prog ε σ ℓ α} {f : α → Prog ε σ ℓ β}

theorem pure (a : α) : Reads (Pure.pure a : Prog ε σ ℓ α) := fun _ => rfl

theorem throw (e : ε) : Reads (MonadExcept.throw e : Prog ε σ ℓ α) := fun _ => rfl

theorem fetch : Reads (Holding.fetch : Prog ε σ ℓ σ) := fun _ => rfl

theorem call (x : Except ε α) : Reads (Holding.call x : Prog ε σ ℓ α) := fun _ => rfl

theorem bind (hp : Reads p) (hf : ∀ a, Reads (f a)) : Reads (p >>= f) := by
  intro t
  have h := hp t
  rcases hrun : p.exec t with ⟨e | a, u⟩
  · rw [exec_bind_error hrun]
    rwa [hrun] at h
  · rw [exec_bind_ok hrun, hf a u]
    rwa [hrun] at h

variable [DecidableEq ℓ]

theorem lock (e : ε) (m : Mode) (x : ℓ) : Reads (Holding.lock e m x : Prog ε σ ℓ Unit) := by
  intro t
  by_cases hfree : Free t.held x m
  · rw [exec_lock hfree]
  · rw [exec_lock_stuck hfree]

theorem unlock (m : Mode) (x : ℓ) : Reads (Holding.unlock m x : Prog ε σ ℓ Unit) := fun _ => rfl

end Reads
end Reads
end Holding
