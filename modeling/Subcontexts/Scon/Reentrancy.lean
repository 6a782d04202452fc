import Subcontexts.Scon.Faults
import Mathlib.Logic.Function.Basic

/-! The `scb` pointers that `scon_create`, `scon_callf` and `scon_close` keep while code of the
subcontexts runs, and the control blocks they lead to. -/

namespace Subcontexts.Scon

structure ScbPtr where
  gen : Nat
  index : Nat
  deriving DecidableEq, Repr

def State.getScb (s : State) (h : Nat) : Option ScbPtr :=
  if h < s.table.length then some ⟨s.gen, h⟩ else none

/-- The pointer through which an action reads and writes a control block: the one its call
obtained, however long ago. -/
def State.pointer (s : State) : Action → Option ScbPtr
  | .opened _ _ _ =>
    match s.stack with
    | .creating h gen :: _ => some ⟨gen, h⟩
    | _ => none
  | .ret =>
    match s.stack with
    | .calling h gen :: _ => some ⟨gen, h⟩
    | _ => none
  | .call h => s.getScb h
  | .close h => s.getScb h
  | _ => none

def Frame.gen : Frame → Nat
  | .creating _ gen => gen
  | .calling _ gen => gen

def Frame.handle : Frame → Nat
  | .creating h _ => h
  | .calling h _ => h

/-- The state together with what the `scon_create` of each handle has stored. -/
structure Stored where
  state : State
  stored : Nat → Option (Nat × List MapEntry)

def store (s : State) (stored : Nat → Option (Nat × List MapEntry)) :
    Action → Nat → Option (Nat × List MapEntry)
  | .opened libhandle before after =>
    match s.stack with
    | .creating h _ :: _ => Function.update stored h (some (libhandle, mapDiff before after))
    | _ => stored
  | _ => stored

def Stored.Step (x : Stored) (a : Action) (y : Stored) : Prop :=
  step x.state a = some y.state ∧ y.stored = store x.state x.stored a

theorem Stored.step_of {x : Stored} {a : Action} {t : State} (h : Scon.step x.state a = some t) :
    x.Step a ⟨t, store x.state x.stored a⟩ := ⟨h, rfl⟩

def Stored.init (x : Stored) : Prop := x.state.init ∧ x.stored = fun _ => none

structure Current (x : Stored) : Prop where
  pointer : ∀ a p, x.state.pointer a = some p →
    p.gen = x.state.gen ∧ p.index < x.state.table.length
  kept : ∀ h l es, x.stored h = some (l, es) →
    x.state.table[h]? = some ⟨l, if h ∈ x.state.closed then .freed else .live es⟩
  own : ∀ h l es, x.state.table[h]? = some ⟨l, .live es⟩ → x.stored h = some (l, es)

def State.Grows (s : State) : Prop := s.capacity / 2 ≤ s.table.length + 1

/-- The condition on a step: the table moves only while no `scon_create` and no `scon_callf` is
in progress. -/
def Settled (s : State) : Action → Prop
  | .create moved => moved = true → s.Grows → s.stack = []
  | _ => True

structure Fresh (x : Stored) : Prop where
  frames : ∀ f ∈ x.state.stack, f.gen = x.state.gen ∧ f.handle < x.state.table.length
  kept : ∀ h l es, x.stored h = some (l, es) →
    x.state.table[h]? = some ⟨l, if h ∈ x.state.closed then .freed else .live es⟩
  own : ∀ h l es, x.state.table[h]? = some ⟨l, .live es⟩ → x.stored h = some (l, es)

section Fresh
variable {s t : State} {st : Nat → Option (Nat × List MapEntry)}

theorem Fresh.init {x : Stored} (h : x.init) : Fresh x := by
  obtain ⟨⟨htable, -, -, hstack, -⟩, hst⟩ := h
  refine ⟨fun f hf => ?_, fun k l es hk => ?_, fun k l es hk => ?_⟩
  · rw [hstack] at hf
    cases hf
  · rw [hst] at hk
    cases hk
  · rw [htable] at hk
    cases hk

theorem Fresh.current {x : Stored} (F : Fresh x) : Current x := by
  refine ⟨fun a p hp => ?_, F.kept, F.own⟩
  have hget : ∀ h, x.state.getScb h = some p →
      p.gen = x.state.gen ∧ p.index < x.state.table.length := by
    intro h hh
    unfold State.getScb at hh
    split at hh
    · obtain rfl := Option.some.inj hh
      exact ⟨rfl, ‹_›⟩
    · cases hh
  cases a with
  | opened libhandle before after =>
    simp only [State.pointer] at hp
    split at hp
    · rename_i h gen rest hs
      obtain rfl := Option.some.inj hp
      exact F.frames (.creating h gen) (by rw [hs]; exact List.mem_cons_self ..)
    · cases hp
  | ret =>
    simp only [State.pointer] at hp
    split at hp
    · rename_i h gen rest hs
      obtain rfl := Option.some.inj hp
      exact F.frames (.calling h gen) (by rw [hs]; exact List.mem_cons_self ..)
    · cases hp
  | call h => exact hget h hp
  | close h => exact hget h hp
  | create moved => cases hp
  | fault siErrno addr => cases hp
  | remap start len p => cases hp

theorem Fresh.frame (F : Fresh ⟨s, st⟩) (htable : t.table = s.table) (hclosed : t.closed = s.closed)
    (hgen : t.gen = s.gen) (hstack : ∀ f ∈ t.stack, f ∈ s.stack ∨
      f.gen = s.gen ∧ f.handle < s.table.length) : Fresh ⟨t, st⟩ := by
  refine ⟨fun f hf => ?_, fun h l es hh => ?_, fun h l es hh => ?_⟩
  · change f.gen = t.gen ∧ f.handle < t.table.length
    rw [hgen, htable]
    rcases hstack f hf with hold | hnew
    · exact F.frames f hold
    · exact hnew
  · change t.table[h]? = some ⟨l, if h ∈ t.closed then .freed else .live es⟩
    rw [htable, hclosed]
    exact F.kept h l es hh
  · change t.table[h]? = _ at hh
    rw [htable] at hh
    exact F.own h l es hh

theorem Fresh.create (F : Fresh ⟨s, st⟩) {moved : Bool} (hok : Settled s (.create moved))
    (ht : step s (.create moved) = some t) : Fresh ⟨t, st⟩ := by
  obtain rfl := Option.some.inj ht
  have hget : ∀ (h : Nat) (c : Scb), s.table[h]? = some c → (s.table ++ [⟨0, .notSet⟩])[h]? = some c := by
    intro h c hc
    obtain ⟨hlt, -⟩ := List.getElem?_eq_some_iff.mp hc
    rw [List.getElem?_append_left hlt]
    exact hc
  have hlen : s.table.length < (s.table ++ [⟨0, .notSet⟩] : List Scb).length := by
    rw [List.length_append]
    exact Nat.lt_succ_self _
  refine ⟨fun f hf => ?_, fun h l es hh => ?_, fun h l es hh => ?_⟩
  · rcases List.mem_cons.mp hf with rfl | hf
    · exact ⟨rfl, hlen⟩
    · obtain ⟨hgen, hlt⟩ := F.frames f hf
      refine ⟨hgen.trans (if_neg ?_).symm, Nat.lt_trans hlt hlen⟩
      rintro ⟨hgrow, hmoved⟩
      have hempty := hok hmoved hgrow
      change f ∈ s.stack at hf
      rw [hempty] at hf
      cases hf
  · exact hget h _ (F.kept h l es hh)
  · change (s.table ++ [⟨0, .notSet⟩])[h]? = _ at hh
    by_cases hlt : h < s.table.length
    · rw [List.getElem?_append_left hlt] at hh
      exact F.own h l es hh
    · rw [List.getElem?_append_right (Nat.le_of_not_lt hlt)] at hh
      cases hi : h - s.table.length with
      | zero =>
        rw [hi] at hh
        cases hh
      | succ i =>
        rw [hi] at hh
        cases hh

theorem Fresh.opened (F : Fresh ⟨s, st⟩) (L : Lifecycle s) {libhandle : Nat}
    {before after : List MapEntry} (ht : step s (.opened libhandle before after) = some t) :
    Fresh ⟨t, store s st (.opened libhandle before after)⟩ := by
  obtain ⟨h, stack, hs, rfl⟩ := step_opened ht
  have hmem : Frame.creating h s.gen ∈ s.stack := by
    rw [hs]
    exact List.mem_cons_self ..
  have hlt : h < s.table.length := (F.frames _ hmem).2
  have hcr : h ∈ s.creating := List.mem_filterMap.mpr ⟨_, hmem, rfl⟩
  have hopen : h ∉ s.closed := by
    intro hclosed
    obtain ⟨l, hl⟩ := (L.notSet h).mpr hcr
    obtain ⟨l', hl'⟩ := (L.freed h).mpr hclosed
    rw [hl] at hl'
    cases hl'
  have hget : ∀ k, (s.table.set h ⟨libhandle, .live (mapDiff before after)⟩)[k]? =
      if h = k then some ⟨libhandle, .live (mapDiff before after)⟩ else s.table[k]? := by
    intro k
    rw [List.getElem?_set]
    by_cases hk : h = k
    · rw [if_pos hk, if_pos hk, if_pos hlt]
    · rw [if_neg hk, if_neg hk]
  have hstore : store s st (.opened libhandle before after) =
      Function.update st h (some (libhandle, mapDiff before after)) := by
    unfold store
    rw [hs]
  rw [hstore]
  refine ⟨fun f hf => ?_, fun k l es hk => ?_, fun k l es hk => ?_⟩
  · obtain ⟨hgen, hfl⟩ := F.frames f (by rw [hs]; exact List.mem_cons_of_mem _ hf)
    exact ⟨hgen, Nat.lt_of_lt_of_eq hfl List.length_set.symm⟩
  · change Function.update st h _ k = _ at hk
    change (s.table.set h _)[k]? = some ⟨l, if k ∈ s.closed then .freed else .live es⟩
    rw [hget]
    by_cases hkh : h = k
    · subst k
      rw [Function.update_self] at hk
      obtain ⟨rfl, rfl⟩ := Prod.mk.inj (Option.some.inj hk)
      rw [if_pos rfl, if_neg hopen]
    · rw [Function.update_of_ne (Ne.symm hkh)] at hk
      rw [if_neg hkh]
      exact F.kept k l es hk
  · change (s.table.set h _)[k]? = _ at hk
    change Function.update st h _ k = _
    rw [hget] at hk
    by_cases hkh : h = k
    · subst k
      rw [if_pos rfl] at hk
      cases hk
      exact Function.update_self ..
    · rw [if_neg hkh] at hk
      rw [Function.update_of_ne (Ne.symm hkh)]
      exact F.own k l es hk

theorem Fresh.close (F : Fresh ⟨s, st⟩) {h : Nat} (ht : step s (.close h) = some t) :
    Fresh ⟨t, st⟩ := by
  obtain ⟨es₀, he, rfl⟩ := step_close ht
  obtain ⟨l₀, hl₀⟩ := entriesAt_eq_some.mp he
  have hget := getElem?_freed hl₀
  refine ⟨fun f hf => ?_, fun k l es hk => ?_, fun k l es hk => ?_⟩
  · obtain ⟨hgen, hfl⟩ := F.frames f hf
    exact ⟨hgen, Nat.lt_of_lt_of_eq hfl (List.length_modify ..).symm⟩
  · change (s.table.modify h _)[k]? = some ⟨l, if k ∈ h :: s.closed then .freed else .live es⟩
    rw [hget]
    have hold : s.table[k]? = some ⟨l, if k ∈ s.closed then .freed else .live es⟩ := F.kept k l es hk
    by_cases hkh : h = k
    · subst k
      rw [hl₀] at hold
      rw [if_pos rfl, if_pos (List.mem_cons_self ..)]
      obtain ⟨rfl, -⟩ := Scb.mk.inj (Option.some.inj hold)
      rfl
    · rw [if_neg hkh, hold]
      have hiff : k ∈ h :: s.closed ↔ k ∈ s.closed := by
        rw [List.mem_cons, or_iff_right (Ne.symm hkh)]
      simp only [hiff]
  · change (s.table.modify h _)[k]? = _ at hk
    rw [hget] at hk
    by_cases hkh : h = k
    · rw [if_pos hkh] at hk
      cases hk
    · rw [if_neg hkh] at hk
      exact F.own k l es hk

theorem Fresh.step (F : Fresh ⟨s, st⟩) (L : Lifecycle s) {a : Action} (hok : Settled s a)
    (ht : Scon.step s a = some t) : Fresh ⟨t, store s st a⟩ := by
  cases a with
  | create moved => exact F.create hok ht
  | opened libhandle before after => exact F.opened L ht
  | close h => exact F.close ht
  | call h =>
    obtain ⟨⟨es, he⟩, rfl⟩ := step_call ht
    obtain ⟨l, hl⟩ := entriesAt_eq_some.mp he
    obtain ⟨hlt, -⟩ := List.getElem?_eq_some_iff.mp hl
    refine F.frame rfl rfl rfl fun f hf => ?_
    rcases List.mem_cons.mp hf with rfl | hf
    · exact .inr ⟨rfl, hlt⟩
    · exact .inl hf
  | ret =>
    obtain ⟨h, es, stack, hs, -, rfl⟩ := step_ret ht
    refine F.frame rfl rfl rfl fun f hf => .inl ?_
    rw [hs]
    exact List.mem_cons_of_mem _ hf
  | fault siErrno addr =>
    obtain ⟨e, -, -, rfl⟩ := step_fault ht
    exact F.frame rfl rfl rfl fun f hf => .inl hf
  | remap start len p =>
    obtain ⟨-, rfl⟩ := step_remap ht
    exact F.frame rfl rfl rfl fun f hf => .inl hf

end Fresh

def SettledRun : Stored → Prop :=
  Trans.Reach Stored.init (Trans.Guarded (fun x a => Settled x.state a) Stored.Step)

theorem no_stale_control_block {x : Stored} (h : SettledRun x) : Current x := by
  have key : Lifecycle x.state ∧ Fresh x :=
    Trans.Reach.inv (I := fun x : Stored => Lifecycle x.state ∧ Fresh x)
      (fun _ h0 => ⟨.init h0.1, .init h0⟩)
      (fun _ _ y ⟨L, F⟩ hst => by
        obtain ⟨hok, hstep, hstore⟩ := hst
        refine ⟨L.step hstep, ?_⟩
        have hy : y = ⟨y.state, store _ _ _⟩ := congrArg (Stored.mk y.state) hstore
        rw [hy]
        exact F.step L hok hstep) h
  exact key.2.current

def storedStart : Stored := ⟨emptyState, fun _ => none⟩

theorem storedStart_init : storedStart.init := ⟨⟨rfl, rfl, rfl, rfl, rfl⟩, rfl⟩

/-- A function of the first subcontext creates the second one, which still fits the table. -/
theorem no_stale_control_block_nested : ∃ x, SettledRun x ∧
    x.state.pointer .ret = some ⟨0, 0⟩ ∧ Current x := by
  have h0 : SettledRun storedStart := .init storedStart_init
  have h1 := h0.step (l := Action.create false) ⟨fun h => absurd h Bool.false_ne_true, Stored.step_of rfl⟩
  have h2 := h1.step (l := Action.opened 1 [] [pageA]) ⟨trivial, Stored.step_of rfl⟩
  have h3 := h2.step (l := Action.call 0) ⟨trivial, Stored.step_of rfl⟩
  have h4 := h3.step (l := Action.create false) ⟨fun h => absurd h Bool.false_ne_true, Stored.step_of rfl⟩
  have h5 := h4.step (l := Action.opened 2 [pageA] [pageA, pageB]) ⟨trivial, Stored.step_of rfl⟩
  exact ⟨_, h5, rfl, no_stale_control_block h5⟩

/-- A function of the first of four subcontexts creates a fifth, for which the table grows; the
pointer of its `scon_callf` is to the old table. -/
theorem stale_control_block : ¬ ∀ x, Trans.Reach Stored.init Stored.Step x → Current x := by
  intro H
  have h0 : Trans.Reach Stored.init Stored.Step storedStart := .init storedStart_init
  have h1 := h0.step (l := Action.create false) (Stored.step_of rfl)
  have h2 := h1.step (l := Action.opened 1 [] [pageA]) (Stored.step_of rfl)
  have h3 := h2.step (l := Action.create false) (Stored.step_of rfl)
  have h4 := h3.step (l := Action.opened 2 [] []) (Stored.step_of rfl)
  have h5 := h4.step (l := Action.create false) (Stored.step_of rfl)
  have h6 := h5.step (l := Action.opened 3 [] []) (Stored.step_of rfl)
  have h7 := h6.step (l := Action.create false) (Stored.step_of rfl)
  have h8 := h7.step (l := Action.opened 4 [] []) (Stored.step_of rfl)
  have h9 := h8.step (l := Action.call 0) (Stored.step_of rfl)
  have h10 := h9.step (l := Action.create true) (Stored.step_of rfl)
  have h11 := h10.step (l := Action.opened 5 [] []) (Stored.step_of rfl)
  obtain ⟨hgen, -⟩ := (H _ h11).pointer .ret ⟨0, 0⟩ rfl
  cases hgen

end Subcontexts.Scon
