import Subcontexts.Lib.Trans
import Subcontexts.Member.Guard

/-! Legal faults of the two threads of a process: both handlers return in every run in which no
thread looks at the guard for an address while the other is in the handler for it. -/

namespace Subcontexts.Member
open Region Holding

def Tid.other : Tid → Tid
  | .main => .background
  | .background => .main

theorem Tid.eq_or_eq_other (i j : Tid) : j = i ∨ j = i.other := by
  cases i <;> cases j <;> decide

theorem Tid.other_other (i : Tid) : i.other.other = i := by
  cases i <;> rfl

theorem Tid.ne_other (i : Tid) : i ≠ i.other := by
  cases i <;> decide

/-- Every fault is a legal access to a region of the list that `mmap` can map. -/
def Move.Lawful (pg : PageSize) (s : Sc) (l : List Addr) : Move → Prop
  | .fault _ f => f.Sane ∧ ∃ a ∈ l, Legal (s.extent a) f ∧
      fileRange pg true (s.extent a).vaddr (s.extent a).len (s.extent a).tmpfileOffset
  | _ => True

/-- The fault that a thread looks at the guard for. -/
def Place.looks : Place → Option Fault
  | .check f => some f
  | _ => none

/-- No fault is at the null pointer, and no thread looks at the guard for an address while the other
thread is in the handler for it. -/
def Spared (t : Threads) : Move → Prop
  | .fault _ f => f.vaddr ≠ 0
  | .run i => ∀ f ∈ (t.place i).looks, ∀ g ∈ (t.place i.other).inside, g.vaddr ≠ f.vaddr
  | .take _ | .give _ => True

instance (t : Threads) : (e : Move) → Decidable (Spared t e)
  | .fault _ f => inferInstanceAs (Decidable (f.vaddr ≠ 0))
  | .run i => inferInstanceAs
    (Decidable (∀ f ∈ (t.place i).looks, ∀ g ∈ (t.place i.other).inside, g.vaddr ≠ f.vaddr))
  | .take _ | .give _ => inferInstanceAs (Decidable True)

/-- In step `n`, a thread looks at the guard for an address; the other thread has stored the address
there in an earlier step and is in the handler for it, and the thread has made no step since. -/
def Clash (σ : Nat → Threads) (α : Nat → Move) (n : Nat) : Prop :=
  ∃ i f g m, α n = .run i ∧ (σ n).place i = .check f ∧ m < n ∧ α m = .run i.other ∧
    (σ m).place i.other = .write g ∧ g.vaddr = f.vaddr ∧ ((σ n).place i.other).inside = some g ∧
    ∀ k, m ≤ k → k < n → α k ≠ .run i

def Unclashed (σ : Nat → Threads) (α : Nat → Move) : Prop :=
  (∀ n i f, α n = .fault i f → f.vaddr ≠ 0) ∧ ∀ n, ¬ Clash σ α n

section Safe
variable {pg : PageSize} {s : Sc} {l : List Addr} {t u : Threads} {i : Tid} {f : Fault} {e : Move}

def Passes (t : Threads) : Move → Prop
  | .fault _ f => f.vaddr ≠ 0
  | .run i => ∀ f, t.place i = .check f → f.vaddr ≠ t.prevVaddr
  | _ => True

structure Safe (pg : PageSize) (s : Sc) (l : List Addr) (t : Threads) : Prop where
  good : ∀ i, (t.place i).Good pg s l
  guard : t.prevVaddr = 0 ∨ ∃ j g, (t.place j).inside = some g ∧ g.vaddr = t.prevVaddr

theorem Safe.of_init (h : t.init) : Safe pg s l t := by
  obtain ⟨hprev, hidle, -⟩ := h
  refine ⟨fun i => ?_, .inl hprev⟩
  rw [hidle i]
  trivial

theorem Safe.nonnull (h : Safe pg s l t) (hplace : t.place i = .check f) : f.vaddr ≠ 0 := by
  have hgood := h.good i
  rw [hplace] at hgood
  have hwelcome : Welcome s l f := hgood
  exact hwelcome.nonnull

theorem Safe.passes (h : Safe pg s l t) (hspared : Spared t e) : Passes t e := by
  cases e with
  | run i =>
    intro f hplace hprev
    rcases h.guard with hzero | ⟨j, g, hinside, hg⟩
    · exact h.nonnull hplace (hprev.trans hzero)
    · rcases Tid.eq_or_eq_other i j with rfl | rfl
      · rw [hplace] at hinside
        cases hinside
      · have hlooks : f ∈ (t.place i).looks := by
          rw [hplace]
          rfl
        exact hspared f hlooks g hinside (hg.trans hprev.symm)
  | fault i f => exact hspared
  | take x => trivial
  | give x => trivial

theorem Safe.move {new : Place} (h : Safe pg s l t)
    (hplace : u.place = Function.update t.place i new) (hgood : new.Good pg s l)
    (hguard : GuardMove t u (t.place i) new) : Safe pg s l u := by
  constructor
  · intro j
    rw [hplace]
    by_cases hj : j = i
    · subst j
      rwa [Function.update_self]
    · rw [Function.update_of_ne hj]
      exact h.good j
  · cases hguard with
    | reset hprev _ => exact .inl hprev
    | write g _ hprev hinside =>
      refine .inr ⟨i, g, ?_, hprev.symm⟩
      rw [hplace, Function.update_self]
      exact hinside
    | keep hprev hinside _ =>
      rw [hprev]
      refine h.guard.imp_right ?_
      rintro ⟨j, g, hg, hvaddr⟩
      refine ⟨j, g, ?_, hvaddr⟩
      rw [hplace]
      by_cases hj : j = i
      · subst j
        rw [Function.update_self, hinside]
        exact hg
      · rw [Function.update_of_ne hj]
        exact hg

theorem Safe.run (h : Safe pg s l t) (R : Regions pg s l) (hpasses : Passes t (.run i))
    (hrun : t.run pg s i = some u) : ∃ new, Advance pg s l t u i (t.place i) new :=
  Threads.run_advance R (h.good i) hpasses hrun

theorem Safe.step (h : Safe pg s l t) (R : Regions pg s l) (hlawful : e.Lawful pg s l)
    (hpasses : Passes t e) (hstep : t.step pg s e = some u) : Safe pg s l u := by
  cases e with
  | fault i f =>
    obtain ⟨hsane, a, ha, hlegal, hrange⟩ := hlawful
    obtain ⟨hidle, rfl⟩ := Threads.step_fault hstep
    have hlooks : f.Plausible := ⟨hpasses, hsane⟩
    rw [if_pos hlooks]
    have hinside : Place.inside (.check f) = (t.place i).inside := by
      rw [hidle]
      rfl
    refine ⟨fun j => ?_, h.guard.imp_right ?_⟩
    · by_cases hj : j = i
      · subst j
        rw [Threads.goto_self]
        exact ⟨hsane, a, ha, hlegal, hpasses, hrange.1.2.2⟩
      · rw [Threads.goto_of_ne t _ hj]
        exact h.good j
    · rintro ⟨j, g, hg, hvaddr⟩
      refine ⟨j, g, ?_, hvaddr⟩
      by_cases hj : j = i
      · subst j
        rw [Threads.goto_self, hinside]
        exact hg
      · rw [Threads.goto_of_ne t _ hj]
        exact hg
  | run i =>
    obtain ⟨new, hadvance⟩ := h.run R hpasses hstep
    exact h.move hadvance.place hadvance.good hadvance.guard
  | take x =>
    obtain ⟨hplace, hprev⟩ := Threads.step_take hstep
    refine ⟨fun i => ?_, ?_⟩
    · rw [hplace]
      exact h.good i
    · rw [hplace, hprev]
      exact h.guard
  | give x =>
    obtain rfl := Option.some.inj hstep
    exact ⟨h.good, h.guard⟩

theorem dead_of_not_passes (hstep : t.step pg s e = some u) (hnot : ¬ Passes t e) :
    ∃ i why, u.place i = .dead why := by
  cases e with
  | fault i f =>
    obtain ⟨-, rfl⟩ := Threads.step_fault hstep
    have hlooks : ¬ f.Plausible := fun hlooks => hnot hlooks.1
    rw [if_neg hlooks]
    exact ⟨i, _, Function.update_self ..⟩
  | run i =>
    obtain ⟨f, hnot⟩ := not_forall.mp hnot
    obtain ⟨hplace, hprev⟩ := Classical.not_imp.mp hnot
    have hrun : t.run pg s i = some u := hstep
    unfold Threads.run at hrun
    rw [hplace] at hrun
    dsimp only at hrun
    rw [if_pos (not_not.mp hprev)] at hrun
    obtain rfl := Option.some.inj hrun
    exact ⟨i, _, Function.update_self ..⟩
  | take x => exact absurd trivial hnot
  | give x => exact absurd trivial hnot

end Safe

section Runs
variable {pg : PageSize} {s : Sc} {l : List Addr} {σ : Nat → Threads} {α : Nat → Move} {i : Tid}

/-- The others give every lock back, and a thread that can go on time and again does. -/
structure Fair (pg : PageSize) (s : Sc) (σ : Nat → Threads) (α : Nat → Move) : Prop where
  locks : ∀ x n, ∃ m ≥ n, (σ m).busy x = false
  threads : ∀ i n, (∀ m ≥ n, ∃ k ≥ m, ∃ u, (σ k).run pg s i = some u) → ∃ m ≥ n, α m = .run i

structure LegalRun (pg : PageSize) (s : Sc) (l : List Addr) (σ : Nat → Threads) (α : Nat → Move) :
    Prop extends Trans.Run Threads.init (Trans.ofFun (Threads.step pg s)) σ α where
  regions : Regions pg s l
  lawful : ∀ n, (α n).Lawful pg s l

section Passes
variable (h : LegalRun pg s l σ α)
include h

theorem LegalRun.still {n : Nat} (hopen : ∀ m ≥ n, (σ m).place i ≠ .idle)
    (hnone : ∀ m ≥ n, α m ≠ .run i) : ∀ m ≥ n, (σ m).place i = (σ n).place i := by
  intro m hm
  induction hm with
  | refl => rfl
  | @step m hm ih => exact (Threads.step_stays (h.step m) (hopen m hm) (hnone m hm)).trans ih

theorem LegalRun.dead {n : Nat} {why : Halt} (hdead : (σ n).place i = .dead why) :
    ∀ m ≥ n, (σ m).place i = .dead why := by
  intro m hm
  induction hm with
  | refl => exact hdead
  | @step m hm ih => exact Threads.step_dead (h.step m) ih

theorem LegalRun.safe_of {n : Nat} (hpasses : ∀ m < n, Passes (σ m) (α m)) : Safe pg s l (σ n) := by
  induction n with
  | zero => exact .of_init h.init
  | succ n ih =>
    have hsafe := ih fun m hm => hpasses m (Nat.lt_succ_of_lt hm)
    exact hsafe.step h.regions (h.lawful n) (hpasses n (Nat.lt_succ_self n)) (h.step n)

theorem LegalRun.advance {n : Nat} (hpasses : ∀ m ≤ n, Passes (σ m) (α m)) (hrun : α n = .run i) :
    ∃ new, Advance pg s l (σ n) (σ (n + 1)) i ((σ n).place i) new := by
  have hsafe := h.safe_of fun m hm => hpasses m (Nat.le_of_lt hm)
  have hstep := h.step n
  have hpass := hpasses n (Nat.le_refl n)
  rw [hrun] at hstep hpass
  exact hsafe.run h.regions hpass hstep

end Passes

section Guard

def Stored (σ : Nat → Threads) (α : Nat → Move) (n : Nat) : Prop :=
  (σ n).prevVaddr = 0 ∨ ∃ j g m, m < n ∧ α m = .run j ∧ (σ m).place j = .write g ∧
    ((σ n).place j).inside = some g ∧ (σ n).prevVaddr = g.vaddr ∧
    ((∀ k, m ≤ k → k < n → α k ≠ .run j.other) ∨ ((σ n).place j.other).Late)

theorem Stored.keep {n : Nat} (h : Stored σ α n) (hprev : (σ (n + 1)).prevVaddr = (σ n).prevVaddr)
    (hinside : ∀ j g, ((σ n).place j).inside = some g → ((σ (n + 1)).place j).inside = some g)
    (hlate : ∀ j, (α n ≠ .run j ∧ (((σ n).place j).Late → ((σ (n + 1)).place j).Late)) ∨
      ((σ (n + 1)).place j).Late) : Stored σ α (n + 1) := by
  rcases h with hzero | ⟨j, g, m, hm, hrun, hwrite, hg, hvaddr, hother⟩
  · exact .inl (hprev.trans hzero)
  refine .inr ⟨j, g, m, Nat.lt_succ_of_lt hm, hrun, hwrite, hinside j g hg, hprev.trans hvaddr, ?_⟩
  rcases hlate j.other with ⟨hstill, hmono⟩ | hlate
  · refine hother.imp (fun hnone k hk hlt => ?_) hmono
    rcases Nat.lt_succ_iff_lt_or_eq.mp hlt with hlt | rfl
    · exact hnone k hk hlt
    · exact hstill
  · exact .inr hlate

/-- A step of nobody in the handler, by which no thread moves. -/
theorem Stored.still {n : Nat} (h : Stored σ α n) (hnone : ∀ j, α n ≠ .run j)
    (hprev : (σ (n + 1)).prevVaddr = (σ n).prevVaddr)
    (hplace : ∀ j, (σ (n + 1)).place j = (σ n).place j) : Stored σ α (n + 1) := by
  refine h.keep hprev (fun j g hg => ?_) fun j => .inl ⟨hnone j, fun hlate => ?_⟩
  · rw [hplace j]
    exact hg
  · rw [hplace j]
    exact hlate

theorem Place.inside_idle {p : Place} (h : p = .idle) {g : Fault} : p.inside ≠ some g := by
  rw [h]
  exact (Option.some_ne_none g).symm

theorem LegalRun.stored (h : LegalRun pg s l σ α) {n : Nat}
    (hpasses : ∀ m < n, Passes (σ m) (α m)) : Stored σ α n := by
  induction n with
  | zero => exact .inl h.init.1
  | succ n ih =>
    have hstored := ih fun m hm => hpasses m (Nat.lt_succ_of_lt hm)
    have hstep := h.step n
    cases he : α n with
    | fault i f =>
      rw [he] at hstep
      obtain ⟨hidle, hnext⟩ := Threads.step_fault hstep
      have hplace : ∀ j, j ≠ i → (σ (n + 1)).place j = (σ n).place j := by
        intro j hj
        rw [hnext]
        exact Function.update_of_ne hj _ _
      refine hstored.keep (by rw [hnext]; rfl) (fun j g hg => ?_) fun j => .inl ⟨?_, fun hlate => ?_⟩
      · by_cases hj : j = i
        · exact absurd hg (Place.inside_idle (hj ▸ hidle))
        · rw [hplace j hj]
          exact hg
      · rw [he]
        exact Move.noConfusion
      · by_cases hj : j = i
        · subst j
          rw [hidle] at hlate
          exact hlate.elim
        · rw [hplace j hj]
          exact hlate
    | run i =>
      obtain ⟨new, hadvance⟩ := h.advance (fun m hm => hpasses m (Nat.lt_succ_of_le hm)) he
      have hplace : ∀ j, j ≠ i → (σ (n + 1)).place j = (σ n).place j := by
        intro j hj
        rw [hadvance.place]
        exact Function.update_of_ne hj _ _
      have hself : (σ (n + 1)).place i = new := by
        rw [hadvance.place]
        exact Function.update_self ..
      cases hadvance.guard with
      | keep hprev hinside hlate =>
        refine hstored.keep hprev (fun j g hg => ?_) fun j => ?_
        · by_cases hj : j = i
          · subst j
            rw [hself, hinside]
            exact hg
          · rw [hplace j hj]
            exact hg
        · by_cases hj : j = i
          · subst j
            rw [hself]
            exact .inr hlate
          · rw [hplace j hj, he]
            exact .inl ⟨fun heq => hj (Move.run.inj heq).symm, id⟩
      | write g hold hprev hinside =>
        refine .inr ⟨i, g, n, Nat.lt_succ_self n, he, hold, hself ▸ hinside, hprev, .inl ?_⟩
        intro k hk hlt
        obtain rfl : k = n := Nat.le_antisymm (Nat.le_of_lt_succ hlt) hk
        rw [he]
        exact fun heq => Tid.ne_other i (Move.run.inj heq)
      | reset hprev _ => exact .inl hprev
    | take x =>
      rw [he] at hstep
      obtain ⟨hplace, hprev⟩ := Threads.step_take hstep
      exact hstored.still (fun j => he ▸ Move.noConfusion) hprev fun j => congrFun hplace j
    | give x =>
      rw [he] at hstep
      obtain ⟨hplace, hprev⟩ := Threads.step_give hstep
      exact hstored.still (fun j => he ▸ Move.noConfusion) hprev fun j => congrFun hplace j

theorem LegalRun.holds_address (h : LegalRun pg s l σ α) {m n : Nat} {g : Fault} (hmn : m ≤ n)
    (hpasses : ∀ k < n, Passes (σ k) (α k)) (hwrite : (σ m).place i.other = .write g)
    (hnone : ∀ k, m ≤ k → k < n → α k ≠ .run i) :
    ∀ g', ((σ n).place i.other).inside = some g' → (σ n).prevVaddr = g'.vaddr := by
  induction hmn with
  | refl =>
    intro g' hg
    rw [hwrite] at hg
    cases hg
  | @step n hmn ih =>
    have hold := ih (fun k hk => hpasses k (Nat.lt_succ_of_lt hk))
      fun k hk hlt => hnone k hk (Nat.lt_succ_of_lt hlt)
    have hstep := h.step n
    intro g' hg
    cases he : α n with
    | fault j f =>
      rw [he] at hstep
      obtain ⟨hidle, hnext⟩ := Threads.step_fault hstep
      have hj : i.other ≠ j := by
        rintro rfl
        rw [hnext, Threads.goto_self] at hg
        split at hg
        · cases hg
        · cases hg
      rw [hnext, Threads.goto_of_ne _ _ hj] at hg
      rw [hnext]
      exact hold g' hg
    | run j =>
      obtain rfl | rfl := Tid.eq_or_eq_other i j
      · exact absurd he (hnone n hmn (Nat.lt_succ_self n))
      obtain ⟨new, hadvance⟩ := h.advance (fun m hm => hpasses m (Nat.lt_succ_of_le hm)) he
      rw [hadvance.place, Function.update_self] at hg
      cases hadvance.guard with
      | keep hprev hinside _ => exact hprev.trans (hold g' (hinside ▸ hg))
      | write f _ hprev hinside =>
        rw [hinside] at hg
        obtain rfl := Option.some.inj hg
        exact hprev
      | reset _ hinside =>
        rw [hinside] at hg
        cases hg
    | take x =>
      rw [he] at hstep
      obtain ⟨hplace, hprev⟩ := Threads.step_take hstep
      rw [hplace] at hg
      exact hprev.trans (hold g' hg)
    | give x =>
      rw [he] at hstep
      obtain ⟨hplace, hprev⟩ := Threads.step_give hstep
      rw [hplace] at hg
      exact hprev.trans (hold g' hg)

theorem LegalRun.passes_of_unclashed (h : LegalRun pg s l σ α) (hun : Unclashed σ α) (n : Nat) :
    Passes (σ n) (α n) := by
  induction n using Nat.strongRecOn with
  | ind n ih =>
    have hsafe := h.safe_of ih
    cases he : α n with
    | fault i f => exact hun.1 n i f he
    | run i =>
      intro f hplace hprev
      rcases h.stored ih with hzero | ⟨j, g, m, hm, hrun, hwrite, hg, hvaddr, hother⟩
      · exact hsafe.nonnull hplace (hprev.trans hzero)
      -- the guard has the other thread's address
      obtain rfl | rfl := Tid.eq_or_eq_other i j
      · rw [hplace] at hg
        cases hg
      rw [Tid.other_other] at hother
      rcases hother with hnone | hlate
      · exact hun.2 n ⟨i, f, g, m, he, hplace, hm, hrun, hwrite, hvaddr.symm.trans hprev.symm, hg,
          hnone⟩
      · rw [hplace] at hlate
        exact hlate
    | take x => trivial
    | give x => trivial

theorem LegalRun.unclashed_of_passes (h : LegalRun pg s l σ α)
    (hpasses : ∀ n, Passes (σ n) (α n)) : Unclashed σ α := by
  refine ⟨fun n i f he => ?_, ?_⟩
  · have hpass := hpasses n
    rw [he] at hpass
    exact hpass
  · rintro n ⟨i, f, g, m, he, hplace, hm, -, hwrite, hvaddr, hg, hnone⟩
    have hprev := h.holds_address (Nat.le_of_lt hm) (fun k _ => hpasses k) hwrite hnone g hg
    have hpass := hpasses n
    rw [he] at hpass
    exact hpass f hplace (hvaddr.symm.trans hprev.symm)

theorem LegalRun.passes_of_spared (h : LegalRun pg s l σ α) (hspared : ∀ n, Spared (σ n) (α n))
    (n : Nat) : Passes (σ n) (α n) := by
  induction n using Nat.strongRecOn with
  | ind n ih => exact (h.safe_of ih).passes (hspared n)

end Guard

section Progress
variable (h : LegalRun pg s l σ α) (hpasses : ∀ n, Passes (σ n) (α n))
include h hpasses

theorem LegalRun.safe (n : Nat) : Safe pg s l (σ n) := h.safe_of fun m _ => hpasses m

theorem LegalRun.moves (hfair : Fair pg s σ α) {n : Nat}
    (hopen : ∀ m ≥ n, (σ m).place i ≠ .idle) : ∃ m ≥ n, α m = .run i := by
  by_contra hno
  have hstill := h.still hopen fun m hm hrun => hno ⟨m, hm, hrun⟩
  apply hno
  apply hfair.threads
  intro m hm
  cases hwaits : ((σ n).place i).waitsFor with
  | none =>
    refine ⟨m, Nat.le_refl _, Threads.run_enabled ((h.safe hpasses m).good i) (hopen m hm) ?_⟩
    intro x hx
    rw [hstill m hm, hwaits] at hx
    cases hx
  | some y =>
    obtain ⟨k, hk, hfree⟩ := hfair.locks y m
    have hn : n ≤ k := Nat.le_trans hm hk
    refine ⟨k, hk, Threads.run_enabled ((h.safe hpasses k).good i) (hopen k hn) ?_⟩
    intro x hx
    rw [hstill k hn, hwaits] at hx
    obtain rfl := Option.some.inj hx
    exact hfree

theorem LegalRun.rank_lt {n : Nat} (hrun : α n = .run i) :
    ((σ (n + 1)).place i).rank l < ((σ n).place i).rank l := by
  obtain ⟨new, hadvance⟩ := h.advance (fun m _ => hpasses m) hrun
  rw [hadvance.place, Function.update_self]
  exact hadvance.rank

theorem LegalRun.returns (hfair : Fair pg s σ α) (i : Tid) (n : Nat) :
    ∃ m ≥ n, (σ m).place i = .idle := by
  apply @Trans.eventually_of_rank Threads σ (fun t => t.place i = .idle)
    (fun t => (t.place i).rank l) (fun n => α n = .run i)
  · intro n hopen _
    by_cases hrun : α n = .run i
    · exact Nat.le_of_lt (h.rank_lt hpasses hrun)
    · exact Nat.le_of_eq (congrArg (Place.rank l) (Threads.step_stays (h.step n) hopen hrun))
  · intro n hrun _ _
    exact h.rank_lt hpasses hrun
  · intro n hopen
    exact h.moves hpasses hfair hopen

theorem LegalRun.alive (n : Nat) (i : Tid) (why : Halt) : (σ n).place i ≠ .dead why := by
  intro hdead
  have hgood := (h.safe hpasses n).good i
  rw [hdead] at hgood
  exact hgood

end Progress

/-- Legal faults are served in every run in which no thread looks at the guard for an address that the
other thread is in the handler for; and exactly where a thread comes to the guard right behind the
other's store of its own address, the process ends. -/
theorem handlers_return_iff (h : LegalRun pg s l σ α) :
    ((∀ n, Spared (σ n) (α n)) → (∀ n i why, (σ n).place i ≠ .dead why) ∧
      (Fair pg s σ α → ∀ i n, ∃ m ≥ n, (σ m).place i = .idle)) ∧
    (Unclashed σ α ↔ ∀ n i why, (σ n).place i ≠ .dead why) ∧
    (Fair pg s σ α → (Unclashed σ α ↔ ∀ i n, ∃ m ≥ n, (σ m).place i = .idle)) := by
  have hdies : ∀ n, ¬ Passes (σ n) (α n) → ∃ i why, (σ (n + 1)).place i = .dead why :=
    fun n => dead_of_not_passes (h.step n)
  refine ⟨fun hspared => ⟨?_, fun hfair => ?_⟩, ⟨fun hun => ?_, fun halive => ?_⟩,
    fun hfair => ⟨fun hun => ?_, fun hreturns => ?_⟩⟩
  · exact h.alive (h.passes_of_spared hspared)
  · exact h.returns (h.passes_of_spared hspared) hfair
  · exact h.alive (h.passes_of_unclashed hun)
  · refine h.unclashed_of_passes fun n => ?_
    by_contra hnot
    obtain ⟨i, why, hdead⟩ := hdies n hnot
    exact halive _ i why hdead
  · exact h.returns (h.passes_of_unclashed hun) hfair
  · refine h.unclashed_of_passes fun n => ?_
    by_contra hnot
    obtain ⟨i, why, hdead⟩ := hdies n hnot
    obtain ⟨m, hm, hidle⟩ := hreturns i (n + 1)
    have hstays := h.dead hdead m hm
    rw [hidle] at hstays
    cases hstays

end Runs

section Run

def twoThreads : Threads where
  prevVaddr := 0
  space := soleMember.world.space
  busy _ := false
  held _ := []
  place _ := .idle

def meeting : List Move :=
  [.fault .main ⟨0x10008, .accErr, 6⟩, .run .main, .run .main,
      .fault .background ⟨0x10010, .accErr, 4⟩] ++
    List.replicate 10 (.run .background) ++ List.replicate 8 (.run .main)

def clash : List Move :=
  [.fault .main ⟨0x10008, .accErr, 6⟩, .run .main, .run .main,
    .fault .background ⟨0x10008, .accErr, 6⟩, .run .background]

def meetingState : Nat → Threads :=
  Trans.follow (Threads.step page4096 soleMember.world.sc) (.give .root) meeting twoThreads

theorem twoThreads_init : twoThreads.init := ⟨rfl, fun _ => rfl, fun _ => rfl⟩

theorem twoThreads_regions : Regions page4096 soleMember.world.sc [0x10100] := by
  apply regions_single soleMember_regions
  rw [soleMember_extent]
  exact .inl ⟨.inr (.inl rfl), rfl⟩

theorem twoThreads_lawful {i : Tid} {f : Fault} (hsane : f.Sane) (hlo : 0x10000 ≤ f.vaddr)
    (hhi : f.vaddr < 0x11000) (hpermits : Permits (protRead ||| protWrite) f) :
    (Move.fault i f).Lawful page4096 soleMember.world.sc [0x10100] := by
  refine ⟨hsane, 0x10100, List.mem_cons_self .., ?_⟩
  rw [soleMember_extent]
  exact ⟨⟨(by decide : (0 : Nat) ≠ noOffset), hlo, hhi, hpermits⟩, ⟨rfl, by decide, by decide⟩, rfl⟩

theorem meeting_lawful (n : Nat) :
    (meeting.getD n (.give .root)).Lawful page4096 soleMember.world.sc [0x10100] := by
  have hmem : ∀ e ∈ meeting, e.Lawful page4096 soleMember.world.sc [0x10100] := by
    intro e he
    simp only [meeting, List.mem_append, List.mem_cons, List.mem_replicate, List.not_mem_nil,
      or_false] at he
    rcases he with ((rfl | rfl | rfl | rfl) | ⟨-, rfl⟩) | ⟨-, rfl⟩
    · exact twoThreads_lawful (by decide) (by decide) (by decide) (by decide)
    · trivial
    · trivial
    · exact twoThreads_lawful (by decide) (by decide) (by decide) (by decide)
    · trivial
    · trivial
  rw [List.getD_eq_getElem?_getD]
  cases he : meeting[n]? with
  | none => trivial
  | some e => exact hmem e (List.mem_of_getElem? he)

theorem meeting_returns {n : Nat} (hn : meeting.length ≤ n) :
    (∀ i, (meetingState n).place i = .idle) ∧ ∀ x, (meetingState n).busy x = false := by
  have hexec : ∃ t, Trans.exec (Threads.step page4096 soleMember.world.sc) meeting twoThreads =
      some t ∧ (∀ i, t.place i = .idle) ∧ ∀ x, t.busy x = false := by
    refine ⟨_, rfl, fun i => ?_, fun x => rfl⟩
    cases i with
    | main => rfl
    | background => rfl
  obtain ⟨t, hexec, ht⟩ := hexec
  apply @Trans.follow_after _ _ _ _ _ _ _
    (fun t : Threads => (∀ i, t.place i = .idle) ∧ ∀ x, t.busy x = false) _ hexec ht _ hn
  rintro t ⟨hidle, hfree⟩
  refine ⟨hidle, fun x => ?_⟩
  show Function.update t.busy .root false x = false
  by_cases hx : x = .root
  · subst x
    exact Function.update_self ..
  · rw [Function.update_of_ne hx]
    exact hfree x

theorem meeting_run : LegalRun page4096 soleMember.world.sc [0x10100] meetingState
    fun n => meeting.getD n (.give .root) where
  toRun := by
    have hexec : ∃ t, Trans.exec (Threads.step page4096 soleMember.world.sc) meeting twoThreads =
      some t := ⟨_, rfl⟩
    obtain ⟨t, hexec⟩ := hexec
    exact Trans.Run.of_exec twoThreads_init (fun _ => ⟨_, rfl⟩) hexec
  regions := twoThreads_regions
  lawful := meeting_lawful

theorem meeting_fair : Fair page4096 soleMember.world.sc meetingState
    fun n => meeting.getD n (.give .root) := by
  constructor
  · intro x n
    exact ⟨max n meeting.length, Nat.le_max_left .., (meeting_returns (Nat.le_max_right ..)).2 x⟩
  · intro i n hopen
    obtain ⟨k, hk, u, hu⟩ := hopen (max n meeting.length) (Nat.le_max_left ..)
    have hidle := (meeting_returns (Nat.le_trans (Nat.le_max_right ..) hk)).1 i
    unfold Threads.run at hu
    rw [hidle] at hu
    cases hu

theorem meeting_spared (n : Nat) : Spared (meetingState n) (meeting.getD n (.give .root)) := by
  rcases Nat.lt_or_ge n meeting.length with hn | hn
  · have hall : ∀ n < meeting.length,
        Spared (meetingState n) (meeting.getD n (.give .root)) := by decide +kernel
    exact hall n hn
  · rw [List.getD_eq_getElem?_getD, List.getElem?_eq_none hn]
    trivial

theorem handlers_return_iff_meeting :
    (∀ n i why, (meetingState n).place i ≠ .dead why) ∧
      (∀ i n, ∃ m ≥ n, (meetingState m).place i = .idle) ∧
      Unclashed meetingState fun n => meeting.getD n (.give .root) := by
  obtain ⟨hspared, halive, -⟩ := handlers_return_iff meeting_run
  obtain ⟨hlives, hreturns⟩ := hspared meeting_spared
  exact ⟨hlives, hreturns meeting_fair, halive.mpr hlives⟩

theorem same_address_kills :
    twoThreads.init ∧ Regions page4096 soleMember.world.sc [0x10100] ∧
      (∀ e ∈ clash, e.Lawful page4096 soleMember.world.sc [0x10100]) ∧
      ∃ u, Trans.exec (Threads.step page4096 soleMember.world.sc) clash twoThreads = some u ∧
        u.place .background = .dead (.exit 3) := by
  refine ⟨twoThreads_init, twoThreads_regions, ?_, _, rfl, rfl⟩
  intro e he
  simp only [clash, List.mem_cons, List.not_mem_nil, or_false] at he
  rcases he with rfl | rfl | rfl | rfl | rfl
  · exact twoThreads_lawful (by decide) (by decide) (by decide) (by decide)
  · trivial
  · trivial
  · exact twoThreads_lawful (by decide) (by decide) (by decide) (by decide)
  · trivial

end Run
end Subcontexts.Member
