import Subcontexts.Scon.Isolation

/-! The lengths that `scon_create`, `scon_callf`, `scon_close` and `sigsegv_handler` hand to
`mprotect`: the difference of the two pointers goes through an `int` before it becomes a
`size_t`. -/

namespace Subcontexts.Scon

def pageSize : Nat := 4096

/-- A page-aligned range of user addresses, which are the lower half of the 64-bit ones. -/
structure MapEntry.UserRange (e : MapEntry) : Prop where
  lt : e.startAddr < e.endAddr
  start_aligned : pageSize ∣ e.startAddr
  end_aligned : pageSize ∣ e.endAddr
  user : e.endAddr < 2 ^ 63

section Length
variable {e : MapEntry}

theorem MapEntry.UserRange.fits_iff (hu : e.UserRange) :
    e.Fits ↔ e.endAddr - e.startAddr < 2 ^ 31 :=
  ⟨fun h => h.2, fun h => ⟨Nat.le_of_lt hu.lt, h⟩⟩

/-- From 2 GiB on the `int` is smaller than the range, or negative and then a huge `size_t`. -/
theorem MapEntry.UserRange.length_eq_iff (hu : e.UserRange) :
    e.length = e.endAddr - e.startAddr ↔ e.endAddr - e.startAddr < 2 ^ 31 := by
  constructor
  · intro h
    obtain ⟨hlt, -, -, huser⟩ := hu
    unfold MapEntry.length at h
    rw [Int.bmod_def] at h
    split at h <;> omega
  · intro h
    have hend := (hu.fits_iff.mpr h).end_eq
    omega

end Length

/-- A call `mprotect(curr->start_addr, length, p)`. -/
structure MprotectCall where
  curr : MapEntry
  length : Nat
  p : Prot
  deriving DecidableEq, Repr

/-- `int length = curr->end_addr - curr->start_addr; mprotect(curr->start_addr, length, p)`. -/
def MapEntry.protect (p : Prot) (curr : MapEntry) : MprotectCall := ⟨curr, curr.length, p⟩

def MprotectCall.apply (c : MprotectCall) (prot : Nat → Prot) : Nat → Prot :=
  mprotect c.curr.startAddr c.length c.p prot

structure MprotectCall.Exact (c : MprotectCall) : Prop where
  length : c.length = c.curr.endAddr - c.curr.startAddr
  covers : ∀ prot a, c.apply prot a = if c.curr.contains a then c.p else prot a

def State.mprotectCalls (s : State) : Action → List MprotectCall
  | .opened _ before after => (mapDiff before after).map (·.protect .none)
  | .ret =>
    match s.stack with
    | .calling h _ :: _ => ((s.entries h).getD []).map (·.protect .none)
    | _ => []
  | .close h => ((s.entries h).getD []).map (·.protect .rwx)
  | .fault siErrno addr =>
    match sigsegvHandler siErrno addr s.table with
    | .granted e => [e.protect .rwx]
    | _ => []
  | _ => []

theorem mprotectMap_eq_foldl (es : List MapEntry) (p : Prot) (prot : Nat → Prot) :
    mprotectMap es p prot = (es.map (·.protect p)).foldl (fun pr c => c.apply pr) prot := by
  induction es generalizing prot with
  | nil => rfl
  | cons e es ih => exact ih _

section Calls
variable {s t : State} {a : Action}

theorem step_prot (hst : step s a = some t) (ha : ∀ start len p, a ≠ .remap start len p) :
    t.prot = (s.mprotectCalls a).foldl (fun pr c => c.apply pr) s.prot := by
  cases a with
  | create moved =>
    obtain rfl := Option.some.inj hst
    rfl
  | opened libhandle before after =>
    obtain ⟨h, stack, -, rfl⟩ := step_opened hst
    exact mprotectMap_eq_foldl ..
  | call h =>
    obtain ⟨-, rfl⟩ := step_call hst
    rfl
  | ret =>
    obtain ⟨h, es, stack, hs, he, rfl⟩ := step_ret hst
    simp only [State.mprotectCalls, hs, he, Option.getD_some]
    exact mprotectMap_eq_foldl ..
  | close h =>
    obtain ⟨es, he, rfl⟩ := step_close hst
    simp only [State.mprotectCalls, he, Option.getD_some]
    exact mprotectMap_eq_foldl ..
  | fault siErrno addr =>
    obtain ⟨e, herr, hf, rfl⟩ := step_fault hst
    simp only [State.mprotectCalls, sigsegvHandler, herr, ne_eq, not_true, if_false, hf]
    rfl
  | remap start len p => exact absurd rfl (ha start len p)

theorem eq_protect_of_mem {c : MprotectCall} (hc : c ∈ s.mprotectCalls a) :
    c = c.curr.protect c.p := by
  have hmap : ∀ {es : List MapEntry} {p : Prot}, c ∈ es.map (·.protect p) →
      c = c.curr.protect c.p := by
    intro es p h
    obtain ⟨e, -, rfl⟩ := List.mem_map.mp h
    rfl
  cases a with
  | opened libhandle before after => exact hmap hc
  | close h => exact hmap hc
  | ret =>
    simp only [State.mprotectCalls] at hc
    split at hc
    · exact hmap hc
    · cases hc
  | fault siErrno addr =>
    simp only [State.mprotectCalls] at hc
    split at hc
    · obtain rfl := List.mem_singleton.mp hc
      rfl
    · cases hc
  | create | call | remap => cases hc

end Calls

theorem MprotectCall.exact_protect_iff {e : MapEntry} (hu : e.UserRange) (p : Prot) :
    (e.protect p).Exact ↔ e.endAddr - e.startAddr < 2 ^ 31 := by
  constructor
  · intro h
    exact hu.length_eq_iff.mp h.length
  · intro h
    refine ⟨hu.length_eq_iff.mpr h, fun prot a => ?_⟩
    exact mprotect_entry (hu.fits_iff.mpr h)

/-- The calls that change protection are the ones listed, and each of them covers exactly its
entry's range where that is shorter than 2 GiB. -/
theorem mprotect_calls_exact_iff {s t : State} {a : Action} (hst : step s a = some t)
    (ha : ∀ start len p, a ≠ .remap start len p) :
    t.prot = (s.mprotectCalls a).foldl (fun pr c => c.apply pr) s.prot ∧
      ∀ c ∈ s.mprotectCalls a, c.curr.UserRange →
        (c.Exact ↔ c.curr.endAddr - c.curr.startAddr < 2 ^ 31) := by
  refine ⟨step_prot hst ha, fun c hc hu => ?_⟩
  rw [eq_protect_of_mem hc]
  exact MprotectCall.exact_protect_iff hu c.p

theorem mprotect_calls_exact_iff_opened : ∃ t,
    step { emptyState with table := [⟨0, .notSet⟩], stack := [.creating 0 0] }
      (.opened 1 [] [pageA]) = some t ∧ (pageA.protect .none).Exact := by
  refine ⟨_, rfl, ?_⟩
  have h := mprotect_calls_exact_iff (a := .opened 1 [] [pageA])
    (s := { emptyState with table := [⟨0, .notSet⟩], stack := [.creating 0 0] }) rfl (by simp)
  refine (h.2 (pageA.protect .none) (by decide) ⟨?_, ?_, ?_, ?_⟩).mpr ?_ <;> decide

def wideRange : MapEntry := ⟨2 ^ 32, 2 ^ 33⟩

/-- The length of 4 GiB is 0, and the range keeps its protection. -/
theorem mprotect_calls_exact_fails :
    ¬ ∀ s t a, Reachable s → step s a = some t → ∀ c ∈ s.mprotectCalls a, c.curr.UserRange →
      c.Exact := by
  intro H
  have h0 : Reachable emptyState := .init ⟨rfl, rfl, rfl, rfl, rfl⟩
  have h1 := h0.step (l := Action.create false) rfl
  have hu : wideRange.UserRange := ⟨by decide, by decide, by decide, by decide⟩
  have hexact := H _ _ (.opened 1 [] [wideRange]) h1 rfl (wideRange.protect .none) (by decide) hu
  exact absurd hexact.length (by decide)

end Subcontexts.Scon
