import Subcontexts.Scon.Faults

/-! Isolation of subcontexts: what the calls leave accessible when no `scon_callf` is in progress. -/

namespace Subcontexts.Scon

section Mprotect
variable {e : MapEntry} {es : List MapEntry} {p : Prot} {prot : Nat → Prot} {a : Nat}

def MapEntry.Fits (e : MapEntry) : Prop :=
  e.startAddr ≤ e.endAddr ∧ e.endAddr - e.startAddr < 2 ^ 31

theorem MapEntry.Fits.end_eq (h : e.Fits) : e.startAddr + e.length = e.endAddr := by
  obtain ⟨hle, hlt⟩ := h
  have hb : ((e.endAddr : Int) - e.startAddr).bmod (2 ^ 32) = (e.endAddr : Int) - e.startAddr :=
    Int.bmod_eq_of_le (by omega) (by omega)
  unfold MapEntry.length
  rw [hb]
  omega

theorem mprotect_entry (h : e.Fits) :
    mprotect e.startAddr e.length p prot a = if e.contains a then p else prot a := by
  unfold mprotect MapEntry.contains
  rw [h.end_eq]
  rfl

theorem mprotectMap_apply (h : ∀ e ∈ es, e.Fits) :
    mprotectMap es p prot a = if ∃ e ∈ es, e.contains a then p else prot a := by
  induction es generalizing prot with
  | nil => simp [mprotectMap]
  | cons e es ih =>
    rw [List.forall_mem_cons] at h
    rw [mprotectMap, ih h.2, mprotect_entry h.1]
    have hcons : (∃ d ∈ e :: es, d.contains a) ↔ e.contains a ∨ ∃ d ∈ es, d.contains a := by
      simp
    by_cases hin : ∃ d ∈ es, d.contains a
    · rw [if_pos hin, if_pos (hcons.mpr (.inr hin))]
    · rw [if_neg hin]
      simp only [hcons, hin, or_false]

end Mprotect

def InProgress (s : State) (h : Nat) : Prop := ∃ gen, Frame.calling h gen ∈ s.stack

def Isolated (s : State) : Prop :=
  (∀ h, ¬ InProgress s h) → ∀ h a, Recorded s h a → s.prot a = .none

/-- The recorded range in which a fault at `addr` is served: the first one in table order. -/
def Serves (s : State) (addr : Nat) (e : MapEntry) : Prop :=
  ∃ h es, s.entries h = some es ∧ e ∈ es ∧ e.contains addr ∧ ∀ k < h, ¬ Recorded s k addr

/-- The condition on a step: ranges fit an `int`, a closed subcontext shares no address with an
open one, and access is granted only where a call in progress takes it back. -/
def Spares (s : State) : Action → Prop
  | .opened _ before after => ∀ e ∈ mapDiff before after, e.Fits
  | .close h => ∀ k a, k ≠ h → Recorded s h a → ¬ Recorded s k a
  | .fault _ addr => ∀ e, Serves s addr e → ∀ a, e.contains a →
      ∃ h, InProgress s h ∧ Recorded s h a
  | _ => True

structure Inv (s : State) : Prop where
  fits : ∀ h es, s.entries h = some es → ∀ e ∈ es, e.Fits
  covered : ∀ h a, Recorded s h a → s.prot a = .none ∨ ∃ k, InProgress s k ∧ Recorded s k a

theorem findEntry_serves {table : List Scb} {addr : Nat} {e : MapEntry}
    (h : findEntry table addr = .granted e) :
    ∃ (k l : Nat) (es : List MapEntry), table[k]? = some ⟨l, .live es⟩ ∧ e ∈ es ∧
      e.contains addr ∧ ∀ j < k, ∀ (l' : Nat) (es' : List MapEntry),
        table[j]? = some ⟨l', .live es'⟩ → ∀ d ∈ es', ¬ d.contains addr := by
  induction table with
  | nil => cases h
  | cons scon table ih =>
    obtain ⟨l, m⟩ := scon
    cases m with
    | notSet => cases h
    | freed => cases h
    | live es =>
      simp only [findEntry] at h
      split at h
      · rename_i curr hf
        injection h with h
        subst h
        exact ⟨0, l, es, rfl, List.mem_of_find?_eq_some hf, by simpa using List.find?_some hf,
          fun j hj => absurd hj (Nat.not_lt_zero j)⟩
      · rename_i hf
        obtain ⟨k, l', es', hg, he, hc, hfirst⟩ := ih h
        refine ⟨k + 1, l', es', hg, he, hc, fun j hj l'' es'' hj' => ?_⟩
        cases j with
        | zero =>
          cases hj'
          simpa using hf
        | succ j => exact hfirst j (Nat.lt_of_succ_lt_succ hj) l'' es'' hj'

section Steps
variable {s t : State}

theorem Inv.init (h : s.init) : Inv s := by
  have hnone : ∀ k, s.entries k = none := by
    intro k
    simp [State.entries, entriesAt, h.1]
  refine ⟨fun k es he => ?_, fun k a hr => ?_⟩
  · rw [hnone] at he
    cases he
  · obtain ⟨es, he, -⟩ := hr
    rw [hnone] at he
    cases he

theorem Inv.frame (I : Inv s) (he : ∀ h, t.entries h = s.entries h)
    (hp : ∀ h a, Recorded s h a → t.prot a = s.prot a)
    (hs : ∀ h, InProgress s h → InProgress t h) : Inv t := by
  have hr : ∀ h a, Recorded t h a ↔ Recorded s h a := fun h a => by
    unfold Recorded
    rw [he]
  refine ⟨fun h es hes => I.fits h es (he h ▸ hes), fun h a ha => ?_⟩
  have ha' := (hr h a).mp ha
  rw [hp h a ha']
  rcases I.covered h a ha' with hn | ⟨k, hk, hka⟩
  · exact .inl hn
  · exact .inr ⟨k, hs k hk, (hr k a).mpr hka⟩

theorem InProgress.cons {h : Nat} (H : InProgress s h) (f : Frame) :
    InProgress { s with stack := f :: s.stack } h :=
  H.imp fun _ hg => List.mem_cons_of_mem _ hg

theorem Inv.create (I : Inv s) {moved : Bool} (ht : step s (.create moved) = some t) : Inv t := by
  obtain rfl := Option.some.inj ht
  exact I.frame (fun h => entriesAt_append h) (fun _ _ _ => rfl) fun h H => H.cons _

theorem Lifecycle.entries_creating (L : Lifecycle s) {h : Nat} (hh : h ∈ s.creating) :
    s.entries h = none := by
  obtain ⟨l, hl⟩ := (L.notSet h).mpr hh
  unfold State.entries entriesAt
  rw [hl]

theorem Inv.opened (I : Inv s) (L : Lifecycle s) {libhandle : Nat} {before after : List MapEntry}
    (hok : ∀ e ∈ mapDiff before after, e.Fits)
    (ht : step s (.opened libhandle before after) = some t) : Inv t := by
  obtain ⟨h, stack, hs, rfl⟩ := step_opened ht
  have hcr : h ∈ s.creating := by
    unfold State.creating
    rw [hs]
    exact List.mem_cons_self ..
  have hnone := L.entries_creating hcr
  obtain ⟨l₀, hl₀⟩ := (L.notSet h).mpr hcr
  have hlt : h < s.table.length := (List.getElem?_eq_some_iff.mp hl₀).1
  have he : ∀ k, State.entries { s with
      table := s.table.set h ⟨libhandle, .live (mapDiff before after)⟩
      prot := mprotectMap (mapDiff before after) .none s.prot
      stack := stack } k = if h = k then some (mapDiff before after) else s.entries k := by
    intro k
    exact entriesAt_set hlt libhandle k
  refine ⟨fun k es hes => ?_, fun k a hr => ?_⟩
  · rw [he] at hes
    split at hes
    · exact Option.some.inj hes ▸ hok
    · exact I.fits k es hes
  · change mprotectMap (mapDiff before after) .none s.prot a = .none ∨ _
    rw [mprotectMap_apply hok]
    split
    · exact .inl rfl
    · rename_i hout
      obtain ⟨es, hes, hin⟩ := hr
      rw [he] at hes
      split at hes
      · obtain rfl := Option.some.inj hes
        exact absurd hin hout
      · rcases I.covered k a ⟨es, hes, hin⟩ with hn | ⟨j, ⟨gen, hj⟩, es', hes', hin'⟩
        · exact .inl hn
        · have hne : h ≠ j := by
            rintro rfl
            rw [hnone] at hes'
            cases hes'
          have hj' : Frame.calling j gen ∈ stack := by
            rw [hs] at hj
            exact (List.mem_cons.mp hj).resolve_left (by simp)
          exact .inr ⟨j, ⟨gen, hj'⟩, es', by rw [he, if_neg hne]; exact hes', hin'⟩

theorem Inv.ret (I : Inv s) (ht : step s .ret = some t) : Inv t := by
  obtain ⟨h, es, stack, hs, he, rfl⟩ := step_ret ht
  refine ⟨I.fits, fun k a hr => ?_⟩
  change mprotectMap es .none s.prot a = .none ∨ _
  rw [mprotectMap_apply (I.fits h es he)]
  split
  · exact .inl rfl
  · rename_i hout
    rcases I.covered k a hr with hn | ⟨j, ⟨gen, hj⟩, es', hes', hin'⟩
    · exact .inl hn
    · have hne : j ≠ h := by
        rintro rfl
        obtain rfl := Option.some.inj (he.symm.trans hes')
        exact hout hin'
      have hj' : Frame.calling j gen ∈ stack := by
        rw [hs] at hj
        exact (List.mem_cons.mp hj).resolve_left (by simp [hne])
      exact .inr ⟨j, ⟨gen, hj'⟩, es', hes', hin'⟩

theorem Inv.close (I : Inv s) {h : Nat} (hok : ∀ k a, k ≠ h → Recorded s h a → ¬ Recorded s k a)
    (ht : step s (.close h) = some t) : Inv t := by
  obtain ⟨es, he, rfl⟩ := step_close ht
  have hent : ∀ k, State.entries { s with
      table := s.table.modify h fun c => { c with memmap := .freed }
      prot := mprotectMap es .rwx s.prot
      closed := h :: s.closed } k = if h = k then none else s.entries k := by
    intro k
    exact entriesAt_freed k
  have hrec : ∀ k a, Recorded { s with
      table := s.table.modify h fun c => { c with memmap := .freed }
      prot := mprotectMap es .rwx s.prot
      closed := h :: s.closed } k a → k ≠ h ∧ Recorded s k a := by
    rintro k a ⟨es', hes', hin⟩
    rw [hent] at hes'
    split at hes'
    · cases hes'
    · exact ⟨Ne.symm ‹h ≠ k›, es', hes', hin⟩
  refine ⟨fun k es' hes' => ?_, fun k a hr => ?_⟩
  · rw [hent] at hes'
    split at hes'
    · cases hes'
    · exact I.fits k es' hes'
  · obtain ⟨hne, hr⟩ := hrec k a hr
    have hout : ¬ ∃ e ∈ es, e.contains a := fun hin => hok k a hne ⟨es, he, hin⟩ hr
    change mprotectMap es .rwx s.prot a = .none ∨ _
    rw [mprotectMap_apply (I.fits h es he), if_neg hout]
    rcases I.covered k a hr with hn | ⟨j, hj, es', hes', hin'⟩
    · exact .inl hn
    · have hne' : h ≠ j := by
        rintro rfl
        obtain rfl := Option.some.inj (he.symm.trans hes')
        exact hout hin'
      exact .inr ⟨j, hj, es', by rw [hent, if_neg hne']; exact hes', hin'⟩

theorem Inv.fault (I : Inv s) {siErrno : Int} {addr : Nat} (hok : Spares s (.fault siErrno addr))
    (ht : step s (.fault siErrno addr) = some t) : Inv t := by
  obtain ⟨e, -, hf, rfl⟩ := step_fault ht
  obtain ⟨k, l, es, hk, he, hc, hfirst⟩ := findEntry_serves hf
  have hes : s.entries k = some es := entriesAt_eq_some.mpr ⟨l, hk⟩
  have hserves : Serves s addr e := by
    refine ⟨k, es, hes, he, hc, fun j hj => ?_⟩
    rintro ⟨es', hes', d, hd, hda⟩
    obtain ⟨l', hl'⟩ := entriesAt_eq_some.mp hes'
    exact hfirst j hj l' es' hl' d hd hda
  refine ⟨I.fits, fun h a hr => ?_⟩
  change mprotect e.startAddr e.length .rwx s.prot a = .none ∨ _
  rw [mprotect_entry (I.fits k es hes e he)]
  split
  · exact .inr (hok e hserves a ‹_›)
  · exact I.covered h a hr

theorem Inv.remap (I : Inv s) {start len : Nat} {p : Prot}
    (ht : step s (.remap start len p) = some t) : Inv t := by
  obtain ⟨hfor, rfl⟩ := step_remap ht
  refine I.frame (fun _ => rfl) (fun h a hr => ?_) fun _ H => H
  obtain ⟨es, hes, e, he, hc⟩ := hr
  obtain ⟨l, hl⟩ := entriesAt_eq_some.mp hes
  have hout : e.endAddr ≤ start ∨ start + len ≤ e.startAddr := hfor _ (List.mem_of_getElem? hl) e he
  unfold MapEntry.contains at hc
  exact if_neg (by omega)

theorem Inv.step (I : Inv s) (L : Lifecycle s) {a : Action} (hok : Spares s a)
    (ht : step s a = some t) : Inv t := by
  cases a with
  | create moved => exact I.create ht
  | opened libhandle before after => exact I.opened L hok ht
  | call h =>
    obtain ⟨-, rfl⟩ := step_call ht
    exact I.frame (fun _ => rfl) (fun _ _ _ => rfl) fun k H => H.cons _
  | ret => exact I.ret ht
  | close h => exact I.close hok ht
  | fault siErrno addr => exact I.fault hok ht
  | remap start len p => exact I.remap ht

end Steps

def Spared : State → Prop :=
  Trans.Reach State.init (Trans.Guarded Spares (Trans.ofFun step))

theorem inv_of_spared {s : State} (h : Spared s) : Inv s :=
  Trans.Reach.inv_reach (I := Inv) (fun _ => Inv.init)
    (fun _ _ _ hr I hst => I.step (lifecycle_of_reachable hr.of_guarded) hst.1 hst.2) h

/-- Between calls, every recorded range of every open subcontext is inaccessible. -/
theorem subcontext_isolation {s : State} (h : Spared s) : Isolated s := by
  intro hidle k a hr
  rcases (inv_of_spared h).covered k a hr with hn | ⟨j, hj, -⟩
  · exact hn
  · exact absurd hj (hidle j)

/-- A nested call touches its own page; both calls return. -/
theorem subcontext_isolation_nested : ∃ s, Spared s ∧ Isolated s ∧ Recorded s 1 8192 := by
  have hserves : ∀ (s : State) (e : MapEntry), s.table = [⟨1, .live [pageA]⟩, ⟨2, .live [pageB]⟩] →
      Serves s 8192 e → e = pageB := by
    rintro s e ht ⟨h, es, hes, he, hc, -⟩
    unfold State.entries at hes
    rw [ht] at hes
    match h with
    | 0 =>
      obtain rfl := Option.some.inj hes
      obtain rfl := List.mem_singleton.mp he
      exact absurd hc (by decide)
    | 1 =>
      obtain rfl := Option.some.inj hes
      exact List.mem_singleton.mp he
    | _ + 2 => cases hes
  have h0 : Spared emptyState := .init ⟨rfl, rfl, rfl, rfl, rfl⟩
  have h1 := h0.step (l := Action.create false) ⟨trivial, rfl⟩
  have h2 := h1.step (l := Action.opened 1 [] [pageA]) ⟨by simp [Spares, mapDiff, MapEntry.Fits, pageA], rfl⟩
  have h3 := h2.step (l := Action.create false) ⟨trivial, rfl⟩
  have h4 := h3.step (l := Action.opened 2 [pageA] [pageA, pageB])
    ⟨by simp [Spares, mapDiff, mapEntryEqual, MapEntry.Fits, pageA, pageB], rfl⟩
  have h5 := h4.step (l := Action.call 0) ⟨trivial, rfl⟩
  have h6 := h5.step (l := Action.call 1) ⟨trivial, rfl⟩
  have h7 := h6.step (l := Action.fault 0 8192) ⟨fun e he a ha => by
    have heq : e = pageB := hserves _ e rfl he
    rw [heq] at ha
    exact ⟨1, ⟨0, List.mem_cons_self ..⟩, [pageB], rfl, pageB, List.mem_singleton_self _, ha⟩, rfl⟩
  have h8 := h7.step (l := Action.ret) ⟨trivial, rfl⟩
  have h9 := h8.step (l := Action.ret) ⟨trivial, rfl⟩
  exact ⟨_, h9, subcontext_isolation h9, [pageB], rfl, pageB, List.mem_singleton_self _, by decide⟩

/-- The runs of a program that creates and closes subcontexts between calls and touches their
memory only in calls. -/
def Disciplined (s : State) : Action → Prop
  | .create _ => s.stack = []
  | .close _ => s.stack = []
  | .call _ => s.creating = []
  | .fault _ _ => s.creating = [] ∧ s.stack ≠ []
  | _ => True

/-- The function called in the first subcontext touches a page of the second one. -/
theorem subcontext_isolation_fails :
    ¬ ∀ s, Trans.Reach State.init (Trans.Guarded Disciplined (Trans.ofFun step)) s → Isolated s := by
  intro H
  have h0 : Trans.Reach State.init (Trans.Guarded Disciplined (Trans.ofFun step)) emptyState :=
    .init ⟨rfl, rfl, rfl, rfl, rfl⟩
  have h1 := h0.step (l := Action.create false) ⟨rfl, rfl⟩
  have h2 := h1.step (l := Action.opened 1 [] [pageA]) ⟨trivial, rfl⟩
  have h3 := h2.step (l := Action.create false) ⟨rfl, rfl⟩
  have h4 := h3.step (l := Action.opened 2 [pageA] [pageA, pageB]) ⟨trivial, rfl⟩
  have h5 := h4.step (l := Action.call 0) ⟨rfl, rfl⟩
  have h6 := h5.step (l := Action.fault 0 8192) ⟨⟨rfl, List.cons_ne_nil _ _⟩, rfl⟩
  have h7 := h6.step (l := Action.ret) ⟨trivial, rfl⟩
  have hidle := H _ h7 (fun h hp => by obtain ⟨gen, hg⟩ := hp; cases hg) 1 8192
    ⟨[pageB], rfl, pageB, List.mem_singleton_self _, by decide⟩
  exact absurd hidle (by decide)

end Subcontexts.Scon
