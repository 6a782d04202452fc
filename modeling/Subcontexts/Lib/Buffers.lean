import Mathlib.Logic.Function.Basic
import Subcontexts.Lib.Trans

/-! What an allocator is for: buffers at addresses that do not overlap, each of which changes only
through its own address. -/

namespace Buffers

structure Buffer where
  size : Nat
  word : Fin size → Nat

/-- Buffers with `gap` addresses or more between any two. -/
structure Store (gap : Nat) where
  buffer : Nat → Option Buffer
  apart : ∀ {p q b c}, buffer p = some b → buffer q = some c → p < q → p + b.size + gap ≤ q

inductive Op where
  | idle
  | alloc (p : Nat) (b : Buffer)
  | free (p : Nat)
  | write (p i v : Nat)

def Op.target : Op → Option Nat
  | .idle => none
  | .alloc p _ => some p
  | .free p => some p
  | .write p _ _ => some p

variable {gap : Nat}

namespace Store

def Step (m : Store gap) : Op → Store gap → Prop
  | .idle, m' => m'.buffer = m.buffer
  | .alloc p b, m' => m.buffer p = none ∧ m'.buffer = Function.update m.buffer p (some b)
  | .free p, m' => m.buffer p ≠ none ∧ m'.buffer = Function.update m.buffer p none
  | .write p i v, m' => ∃ b, m.buffer p = some b ∧ ∃ h : i < b.size,
      m'.buffer = Function.update m.buffer p (some ⟨b.size, Function.update b.word ⟨i, h⟩ v⟩)

theorem Step.frame {m m' : Store gap} {op : Op} (h : m.Step op m') {p : Nat}
    (hp : op.target ≠ some p) : m'.buffer p = m.buffer p := by
  cases op with
  | idle => exact congrFun h p
  | alloc q b =>
    rw [h.2, Function.update_of_ne]
    rintro rfl
    exact hp rfl
  | free q =>
    rw [h.2, Function.update_of_ne]
    rintro rfl
    exact hp rfl
  | write q i v =>
    obtain ⟨b, -, hi, h⟩ := h
    rw [h, Function.update_of_ne]
    rintro rfl
    exact hp rfl

end Store

section Simulation
variable {S L : Type*} {init : S → Prop} {step : S → L → S → Prop} {shows : S → Store gap → Prop}
  {effect : L → Op → Prop}

/-- A system each of whose steps is an operation on the buffers it shows. -/
def Simulates (init : S → Prop) (step : S → L → S → Prop) (shows : S → Store gap → Prop)
    (effect : L → Op → Prop) : Prop :=
  ∀ s l t m, Trans.Reach init step s → shows s m → step s l t →
    ∃ op m', effect l op ∧ m.Step op m' ∧ shows t m'

/-- Over a run in which no step may be about a buffer, the buffer is still there and holds what it
held. -/
theorem Simulates.kept (V : Simulates init step shows effect) {s t : S} {m : Store gap} {p : Nat}
    {b : Buffer} {spare : L → Prop} (hs : Trans.Reach init step s) (hm : shows s m)
    (hb : m.buffer p = some b)
    (hspare : ∀ (m m' : Store gap) l op, spare l → m.buffer p = some b → effect l op → m.Step op m' →
      op.target ≠ some p)
    (h : Trans.Reach (· = s) (Trans.Guarded (fun _ l => spare l) step) t) :
    ∃ m', shows t m' ∧ m'.buffer p = some b := by
  induction h with
  | init h =>
    subst h
    exact ⟨m, hm, hb⟩
  | @step u l t hu hst ih =>
    obtain ⟨m₁, hm₁, hb₁⟩ := ih
    obtain ⟨op, m₂, heffect, hstep, hm₂⟩ := V u l t m₁ (hs.trans hu.of_guarded) hm₁ hst.2
    refine ⟨m₂, hm₂, ?_⟩
    rw [hstep.frame (hspare m₁ m₂ l op hst.1 hb₁ heffect hstep), hb₁]

end Simulation
end Buffers
