import Subcontexts.Library.Runs
import Subcontexts.Maps.Line

/-! From the text of the maps files to the page protections: while no `scon_callf` is in progress, the
memory that opening a library has brought in, line by line of the kernel's file, is inaccessible. -/

namespace Subcontexts.Library
open Maps Scanf

section Text
variable {ls : List RangeLine}

def fileText (ls : List RangeLine) : List Char := Lines.file (ls.map RangeLine.line)

/-- The line fits the buffer of `Map_parse`, and the pathname read of it fits its field. -/
def Fits (l : RangeLine) : Prop := l.line.text.length ≤ 255 ∧ (pathnameOf l.line.text).length < 128

theorem fileEntries_fileText (junk : Nat → Nat → Char) (hfit : ∀ l ∈ ls, Fits l) :
    ∃ es, fileEntries junk (fileText ls) = .ok es ∧ ranges es = ls.map RangeLine.range := by
  have hshort : ∀ l ∈ ls.map RangeLine.line, l.text.length < 256 := by
    intro l hl
    obtain ⟨l', hl', rfl⟩ := List.mem_map.mp hl
    exact Nat.lt_succ_of_le (hfit l' hl').1
  obtain ⟨es, hes, hranges⟩ := parsePieces_rangeLines junk (fun l hl => (hfit l hl).2) 0
  refine ⟨es, ?_, hranges⟩
  unfold fileEntries fileText
  rw [Lines.pieces_eq hshort (length_lt_file _), List.map_map]
  exact hes

end Text

section Steps
variable {s t : State} {owned : List (Addr × List Addr)} {act : Action}

theorem Inv.entries_of_step (I : Inv s owned) (h : Library.step s act = .ok t) {a : Addr}
    {es : List MapEntry} (ha : a < s.arena.maps.length) (hes : t.arena.entries a = .ok es) :
    s.arena.entries a = .ok es := by
  cases act with
  | create moved before junk =>
    obtain ⟨⟨b, ar⟩, hparse, hret⟩ := bind_eq_ok.mp h
    obtain rfl := Except.ok.inj hret
    obtain ⟨_, -, -, -, hold⟩ := parse_keeps I.owned hparse
    exact (hold a ha).symm.trans hes
  | opened libhandle after junk =>
    obtain ⟨scon, before, stack, after', ar, memmap, es', ar', hstack, -, hparse, hmap, rfl⟩ :=
      opened_spec h
    obtain ⟨b, a', rfl, rfl⟩ := newMap_eq_ok hmap
    cases after with
    | none => cases hparse
    | some input =>
      obtain ⟨rest, bs, as, -, -, C⟩ := I.compared hstack hparse hmap
      have hne : a ≠ b := by
        rintro rfl
        cases C.gone.symm.trans hes
      exact (C.others a ha hne).symm.trans hes
  | call scon =>
    obtain ⟨c, -, hrun⟩ := bind_eq_ok.mp h
    obtain ⟨_, -, hret⟩ := bind_eq_ok.mp hrun
    obtain rfl := Except.ok.inj hret
    exact hes
  | ret =>
    obtain ⟨scon, stack, c, es', -, -, -, rfl⟩ := ret_spec h
    exact hes
  | close scon =>
    obtain ⟨c, memmap, es', ar, -, -, hes', hfree, rfl⟩ := close_spec h
    obtain ⟨rest, -, -, -, hdead, hothers⟩ := I.freed hes' hfree
    have hne : a ≠ memmap := by
      rintro rfl
      cases hdead.symm.trans hes
    exact (hothers a hne).symm.trans hes
  | fault siErrno addr =>
    obtain ⟨e, -, hret⟩ := bind_eq_ok.mp h
    obtain rfl := Except.ok.inj hret
    exact hes
  | remap start len p =>
    obtain ⟨_, -, hret⟩ := bind_eq_ok.mp h
    obtain rfl := Except.ok.inj hret
    exact hes

theorem creating_of_step (h : step s act = .ok t) {scon gen : Nat} {b : Option Addr}
    (hmem : .creating scon gen b ∈ t.stack) : .creating scon gen b ∈ s.stack ∨
      ∃ moved before junk, act = .create moved before junk ∧ scon = s.table.length ∧
        s.arena.parse junk before = .ok (b, t.arena) := by
  cases act with
  | create moved before junk =>
    obtain ⟨⟨b', ar⟩, hparse, hret⟩ := bind_eq_ok.mp h
    obtain rfl := Except.ok.inj hret
    rcases List.mem_cons.mp hmem with heq | hmem
    · obtain ⟨rfl, -, rfl⟩ := Frame.creating.inj heq
      exact .inr ⟨moved, before, junk, rfl, rfl, hparse⟩
    · exact .inl hmem
  | opened libhandle after junk =>
    obtain ⟨scon', before, stack, after', ar, memmap, es', ar', hstack, -, -, -, rfl⟩ := opened_spec h
    rw [hstack]
    exact .inl (List.mem_cons_of_mem _ hmem)
  | call scon =>
    obtain ⟨c, -, hrun⟩ := bind_eq_ok.mp h
    obtain ⟨_, -, hret⟩ := bind_eq_ok.mp hrun
    obtain rfl := Except.ok.inj hret
    rcases List.mem_cons.mp hmem with heq | hmem
    · cases heq
    · exact .inl hmem
  | ret =>
    obtain ⟨scon', stack, c, es', hstack, -, -, rfl⟩ := ret_spec h
    rw [hstack]
    exact .inl (List.mem_cons_of_mem _ hmem)
  | close scon =>
    obtain ⟨c, memmap, es', ar, -, -, -, -, rfl⟩ := close_spec h
    exact .inl hmem
  | fault siErrno addr =>
    obtain ⟨e, -, hret⟩ := bind_eq_ok.mp h
    obtain rfl := Except.ok.inj hret
    exact .inl hmem
  | remap start len p =>
    obtain ⟨_, -, hret⟩ := bind_eq_ok.mp h
    obtain rfl := Except.ok.inj hret
    exact .inl hmem

theorem entries_of_call {s t : Scon.State} {act : Scon.Action} (h : Scon.step s act = some t)
    {scon : Nat} {es : List Scon.MapEntry} (hlt : ∀ k gen stack, s.stack = .creating k gen :: stack →
      k < s.table.length) (hes : t.entries scon = some es) :
    s.entries scon = some es ∧
        (∀ libhandle before after stack, act = .opened libhandle before after →
          s.stack ≠ .creating scon s.gen :: stack) ∨
      ∃ libhandle before after stack, act = .opened libhandle before after ∧
        s.stack = .creating scon s.gen :: stack ∧ es = Scon.mapDiff before after := by
  cases act with
  | create moved =>
    obtain rfl := Option.some.inj h
    exact .inl ⟨(Scon.entriesAt_append scon).symm.trans hes, fun _ _ _ _ heq => by cases heq⟩
  | opened libhandle before after =>
    obtain ⟨k, stack, hs, rfl⟩ := Scon.step_opened h
    have hset : (if k = scon then some (Scon.mapDiff before after) else s.entries scon) = some es :=
      (Scon.entriesAt_set (hlt k _ _ hs) libhandle scon).symm.trans hes
    by_cases hk : k = scon
    · subst k
      rw [if_pos rfl] at hset
      exact .inr ⟨libhandle, before, after, stack, rfl, hs, (Option.some.inj hset).symm⟩
    · rw [if_neg hk] at hset
      refine .inl ⟨hset, fun _ _ _ _ _ hs' => hk ?_⟩
      exact (Scon.Frame.creating.inj (List.cons.inj (hs.symm.trans hs')).1).1
  | call k =>
    obtain ⟨-, rfl⟩ := Scon.step_call h
    exact .inl ⟨hes, fun _ _ _ _ heq => by cases heq⟩
  | ret =>
    obtain ⟨k, es', stack, -, -, rfl⟩ := Scon.step_ret h
    exact .inl ⟨hes, fun _ _ _ _ heq => by cases heq⟩
  | close k =>
    obtain ⟨es', -, rfl⟩ := Scon.step_close h
    have hfreed : (if k = scon then none else s.entries scon) = some es :=
      (Scon.entriesAt_freed scon).symm.trans hes
    split at hfreed
    · cases hfreed
    · exact .inl ⟨hfreed, fun _ _ _ _ heq => by cases heq⟩
  | fault siErrno addr =>
    obtain ⟨e, -, -, rfl⟩ := Scon.step_fault h
    exact .inl ⟨hes, fun _ _ _ _ heq => by cases heq⟩
  | remap start len p =>
    obtain ⟨-, rfl⟩ := Scon.step_remap h
    exact .inl ⟨hes, fun _ _ _ _ heq => by cases heq⟩

end Steps

section History

/-- The library, and for each handle the lines that the maps file had before and after its library was
opened. -/
structure History where
  state : State
  before : Nat → List RangeLine
  after : Nat → List RangeLine

def Stated (mapsfile : Option (List Char)) (ls : List RangeLine) : Prop :=
  mapsfile = some (fileText ls) ∧ ∀ l ∈ ls, Fits l

def History.Step (x : History) (act : Action) (y : History) : Prop :=
  step x.state act = .ok y.state ∧
    match act with
    | .create _ before _ => ∃ ls, Stated before ls ∧
        y.before = Function.update x.before x.state.table.length ls ∧ y.after = x.after
    | .opened _ after _ => ∃ ls, Stated after ls ∧ y.before = x.before ∧
        ∃ scon gen b stack, x.state.stack = .creating scon gen b :: stack ∧
          y.after = Function.update x.after scon ls
    | _ => y.before = x.before ∧ y.after = x.after

def History.init (x : History) : Prop := x.state.init

def lineRanges (ls : List RangeLine) : List Scon.MapEntry := ls.map RangeLine.range

theorem fileEntries_stated {mapsfile : Option (List Char)} {ls : List RangeLine}
    (h : Stated mapsfile ls) (junk : Nat → Nat → Char) : ∃ input es, mapsfile = some input ∧
      fileEntries junk input = .ok es ∧ ranges es = lineRanges ls := by
  obtain ⟨rfl, hfit⟩ := h
  obtain ⟨es, hes, hranges⟩ := fileEntries_fileText junk hfit
  exact ⟨_, es, rfl, hes, hranges⟩

structure Told (x : History) : Prop where
  creating : ∀ scon gen b, .creating scon gen (some b) ∈ x.state.stack →
    ∃ es, x.state.arena.entries b = .ok es ∧ ranges es = lineRanges (x.before scon)
  opens : ∀ scon es, x.state.view.entries scon = some es →
    es = Scon.mapDiff (lineRanges (x.before scon)) (lineRanges (x.after scon))

variable {x y : History} {owned owned' : List (Addr × List Addr)} {act : Action}

theorem Told.init (h : x.init) : Told x := by
  obtain ⟨⟨htable, -, -, hstack, -⟩, -⟩ := h
  have hstack : x.state.stack = [] := List.map_eq_nil_iff.mp hstack
  refine ⟨fun scon gen b hb => ?_, fun scon es hes => ?_⟩
  · rw [hstack] at hb
    cases hb
  · unfold Scon.State.entries Scon.entriesAt at hes
    rw [htable] at hes
    cases hes

theorem creating_lt (L : Scon.Lifecycle x.state.view) {scon gen : Nat} {b : Option Addr}
    (h : .creating scon gen b ∈ x.state.stack) :
    scon < x.state.table.length ∧ x.state.view.entries scon = none := by
  have hmem : scon ∈ x.state.view.creating :=
    List.mem_filterMap.mpr ⟨_, List.mem_map_of_mem h, rfl⟩
  obtain ⟨l, hl⟩ := (L.notSet scon).mpr hmem
  have hlt := (List.getElem?_eq_some_iff.mp hl).1
  have hlen : x.state.view.table.length = x.state.table.length := List.length_map ..
  exact ⟨hlen ▸ hlt, L.entries_creating hmem⟩

theorem Told.creating_step (T : Told x) (I : Inv x.state owned) (I' : Inv y.state owned')
    (L : Scon.Lifecycle x.state.view) (h : x.Step act y) {scon gen b : Nat}
    (hb : .creating scon gen (some b) ∈ y.state.stack) :
    ∃ es, y.state.arena.entries b = .ok es ∧ ranges es = lineRanges (y.before scon) := by
  obtain ⟨hst, hlines⟩ := h
  have huse : b ∈ owned'.map Prod.fst := I'.roots.mem_iff.mpr (List.mem_append_left _
    (List.mem_filterMap.mpr ⟨_, hb, rfl⟩))
  obtain ⟨es, hes⟩ := (entries_ok_iff I'.owned).mpr huse
  rcases creating_of_step hst hb with hold | ⟨moved, before, junk, rfl, rfl, hparse⟩
  · obtain ⟨es', hes', hranges⟩ := T.creating scon gen b hold
    have hlt : b < x.state.arena.maps.length := by
      obtain ⟨l, hl⟩ := exists_mem_of_mem_ids ((entries_ok_iff I.owned).mp ⟨es', hes'⟩)
      obtain ⟨m, hm, -⟩ := I.owned.lists _ hl
      exact (List.getElem?_eq_some_iff.mp hm).1
    obtain rfl := Except.ok.inj ((I.entries_of_step hst hlt hes).symm.trans hes')
    have hsame : y.before scon = x.before scon := by
      cases act with
      | create moved before junk =>
        obtain ⟨ls, -, hbefore, -⟩ := hlines
        rw [hbefore]
        exact Function.update_of_ne (Nat.ne_of_lt (creating_lt L hold).1) _ _
      | opened libhandle after junk =>
        obtain ⟨ls, -, hbefore, -⟩ := hlines
        rw [hbefore]
      | call scon => rw [hlines.1]
      | ret => rw [hlines.1]
      | close scon => rw [hlines.1]
      | fault siErrno addr => rw [hlines.1]
      | remap start len p => rw [hlines.1]
    exact ⟨es, hes, hsame ▸ hranges⟩
  · obtain ⟨ls, hstated, hbefore, -⟩ := hlines
    obtain ⟨input, es', rfl, hes', hranges⟩ := fileEntries_stated hstated junk
    obtain ⟨l, ar, hrun, -, hentries, -⟩ := parse_reads I.owned hes'
    obtain ⟨hb, rfl⟩ := Prod.mk.inj (Except.ok.inj (hrun.symm.trans hparse))
    obtain rfl := Option.some.inj hb
    refine ⟨es', hentries, ?_⟩
    rw [hbefore, Function.update_self]
    exact hranges

theorem Told.opens_step (T : Told x) (I : Inv x.state owned) (L : Scon.Lifecycle x.state.view)
    (h : x.Step act y) {scon : Nat} {es : List Scon.MapEntry}
    (hes : y.state.view.entries scon = some es) :
    es = Scon.mapDiff (lineRanges (y.before scon)) (lineRanges (y.after scon)) := by
  obtain ⟨hst, hlines⟩ := h
  have hlt : ∀ k gen stack, x.state.view.stack = .creating k gen :: stack →
      k < x.state.view.table.length := by
    intro k gen stack hs
    obtain ⟨b, stack', hstack⟩ := creating_of_view hs
    have hk := (creating_lt L (hstack ▸ List.mem_cons_self ..)).1
    exact Nat.lt_of_lt_of_eq hk (List.length_map ..).symm
  rcases entries_of_call (I.step L hst).1 hlt hes with
    ⟨hold, hnot⟩ | ⟨libhandle, before, after, stack, hact, hs, rfl⟩
  · rw [T.opens scon es hold]
    have hscon : scon < x.state.table.length := by
      obtain ⟨l, hl⟩ := Scon.entriesAt_eq_some.mp hold
      exact Nat.lt_of_lt_of_eq (List.getElem?_eq_some_iff.mp hl).1 (List.length_map ..)
    cases act with
    | create moved before junk =>
      obtain ⟨ls, -, hbefore, hafter⟩ := hlines
      rw [hbefore, hafter, Function.update_of_ne (Nat.ne_of_lt hscon)]
    | opened libhandle after junk =>
      obtain ⟨ls, -, hbefore, k, gen, b, stack, hstack, hafter⟩ := hlines
      have hne : scon ≠ k := by
        rintro rfl
        have hnone := (creating_lt L (hstack ▸ List.mem_cons_self ..)).2
        exact Option.some_ne_none es (hold.symm.trans hnone)
      rw [hbefore, hafter, Function.update_of_ne hne]
    | call scon => rw [hlines.1, hlines.2]
    | ret => rw [hlines.1, hlines.2]
    | close scon => rw [hlines.1, hlines.2]
    | fault siErrno addr => rw [hlines.1, hlines.2]
    | remap start len p => rw [hlines.1, hlines.2]
  · cases act with
    | opened libhandle' after' junk =>
      obtain ⟨-, rfl, rfl⟩ := Scon.Action.opened.inj hact
      obtain ⟨ls, hstated, hbefore, k, gen, b, stack', hstack, hafter⟩ := hlines
      obtain ⟨input, as, rfl, has, hranges⟩ := fileEntries_stated hstated junk
      obtain ⟨b', stack'', hstack'⟩ := creating_of_view hs
      obtain ⟨hf, -⟩ := List.cons.inj (hstack.symm.trans hstack')
      obtain ⟨rfl, -, rfl⟩ := Frame.creating.inj hf
      obtain ⟨_, hfound⟩ := found_of_step hst
      obtain ⟨b, rfl⟩ := Option.ne_none_iff_exists'.mp (hfound _ _ _ _ hstack)
      obtain ⟨bs, hbs, hranges'⟩ := T.creating k gen b (hstack ▸ List.mem_cons_self ..)
      rw [before_eq hstack hbs, found_eq has, hranges, hranges', hbefore, hafter,
        Function.update_self]
    | create moved before junk => cases hact
    | call scon => cases hact
    | ret => cases hact
    | close scon => cases hact
    | fault siErrno addr => cases hact
    | remap start len p => cases hact

end History

section Main
variable {x : History}

/-- An address that a line of the second file states, with a range that the first one does not. -/
def NewMemory (before after : List RangeLine) (addr : Nat) : Prop :=
  ∃ l ∈ after, (l.startAddr ≤ addr ∧ addr < l.endAddr) ∧
    ¬ ∃ l' ∈ before, l'.startAddr = l.startAddr ∧ l'.endAddr = l.endAddr

theorem mem_mapDiff {before after : List Scon.MapEntry} {e : Scon.MapEntry} :
    e ∈ Scon.mapDiff before after ↔ e ∈ after ∧ e ∉ before := by
  have hany : ∀ a, (before.any fun b => Scon.mapEntryEqual b a) = true ↔ a ∈ before := by
    rintro ⟨start, stop⟩
    rw [List.any_eq_true]
    constructor
    · rintro ⟨⟨start', stop'⟩, hb, heq⟩
      rw [Scon.mapEntryEqual, Bool.and_eq_true, beq_iff_eq, beq_iff_eq] at heq
      obtain ⟨rfl, rfl⟩ := heq
      exact hb
    · exact fun hb => ⟨_, hb, by simp [Scon.mapEntryEqual]⟩
  induction after with
  | nil => simp [Scon.mapDiff]
  | cons a after ih =>
    rw [Scon.mapDiff, List.mem_cons]
    by_cases ha : a ∈ before
    · rw [if_pos ((hany a).mpr ha)]
      refine ih.trans ⟨fun h => ⟨.inr h.1, h.2⟩, fun h => ⟨h.1.resolve_left ?_, h.2⟩⟩
      rintro rfl
      exact h.2 ha
    · rw [if_neg fun h => ha ((hany a).mp h), List.mem_cons]
      refine (or_congr_right ih).trans ?_
      constructor
      · rintro (rfl | h)
        · exact ⟨.inl rfl, ha⟩
        · exact ⟨.inr h.1, h.2⟩
      · rintro ⟨rfl | h, hnot⟩
        · exact .inl rfl
        · exact .inr ⟨h, hnot⟩

theorem newMemory_iff {before after : List RangeLine} {addr : Nat} :
    (∃ e ∈ Scon.mapDiff (lineRanges before) (lineRanges after), e.contains addr) ↔
      NewMemory before after addr := by
  unfold NewMemory lineRanges
  constructor
  · rintro ⟨e, he, haddr⟩
    obtain ⟨hafter, hnew⟩ := mem_mapDiff.mp he
    obtain ⟨l, hl, rfl⟩ := List.mem_map.mp hafter
    refine ⟨l, hl, haddr, fun ⟨l', hl', hstart, hend⟩ => hnew ?_⟩
    refine List.mem_map.mpr ⟨l', hl', ?_⟩
    rw [RangeLine.range, hstart, hend]
    rfl
  · rintro ⟨l, hl, haddr, hnew⟩
    refine ⟨l.range, mem_mapDiff.mpr ⟨List.mem_map_of_mem hl, fun hbefore => hnew ?_⟩, haddr⟩
    obtain ⟨l', hl', heq⟩ := List.mem_map.mp hbefore
    exact ⟨l', hl', congrArg Scon.MapEntry.startAddr heq, congrArg Scon.MapEntry.endAddr heq⟩

/-- A range fits an `int`, an open subcontext shares no address with a closed one, and memory is touched
where a call in progress takes the access back. -/
def Sparing (x : History) (act : Action) : Prop := Scon.Spares x.state.view (act.view x.state)

theorem told_of_run (h : Trans.Reach History.init (Trans.Guarded Sparing History.Step) x) :
    Scon.Spared x.state.view ∧ Told x ∧ ∃ owned, Inv x.state owned := by
  refine Trans.Reach.inv (I := fun x : History => Scon.Spared x.state.view ∧ Told x ∧
    ∃ owned, Inv x.state owned) (fun x hx => ?_) (fun x act y ⟨hr, T, owned, I⟩ hst => ?_) h
  · obtain ⟨hview, hused, hfreed, hmaps⟩ := hx
    exact ⟨.init hview, .init ⟨hview, hused, hfreed, hmaps⟩, [], .init hview hused hfreed hmaps⟩
  · obtain ⟨hspare, hst⟩ := hst
    have L := Scon.lifecycle_of_reachable hr.of_guarded
    obtain ⟨hstep, owned', I'⟩ := I.step L hst.1
    exact ⟨.step (l := act.view x.state) hr ⟨hspare, hstep⟩,
      ⟨fun _ _ _ hb => T.creating_step I I' L hst hb, fun _ _ hes => T.opens_step I L hst hes⟩,
      owned', I'⟩

/-- The map of an open handle records the memory that is new in the file that was read after its library
was opened, and while nothing is called that memory is inaccessible. -/
theorem library_isolates (h : Trans.Reach History.init (Trans.Guarded Sparing History.Step) x) :
    ∀ scon c es, getScb x.state scon = .ok c → c.entries x.state.arena = .ok es →
      (∀ addr, (∃ e ∈ es, e.toRange.contains addr) ↔
        NewMemory (x.before scon) (x.after scon) addr) ∧
      ((∀ k gen, .calling k gen ∉ x.state.stack) →
        ∀ addr, NewMemory (x.before scon) (x.after scon) addr → x.state.prot addr = .none) := by
  obtain ⟨hr, T, -⟩ := told_of_run h
  intro scon c es hc hes
  have hentries : x.state.view.entries scon = some (ranges es) :=
    view_entries_iff.mpr ⟨c, es, hc, hes, rfl⟩
  have hrecorded : ∀ addr, (∃ e ∈ es, e.toRange.contains addr) ↔
      NewMemory (x.before scon) (x.after scon) addr := by
    intro addr
    rw [← newMemory_iff, ← T.opens scon _ hentries]
    exact mapped_toRange.symm
  refine ⟨hrecorded, fun hidle addr hnew => ?_⟩
  rcases (Scon.inv_of_spared hr).covered scon addr
    ⟨_, hentries, mapped_toRange.mpr ((hrecorded addr).mpr hnew)⟩ with hnone | ⟨k, ⟨gen, hgen⟩, -⟩
  · exact hnone
  · obtain ⟨f, hf, hview⟩ := List.mem_map.mp hgen
    cases f with
    | creating k' gen' b => cases hview
    | calling k' gen' => exact (hidle k' gen' hf).elim

end Main

section Run

/-- `00400000-0040b000 r-xp 00000000 08:01 1234 /cat`. -/
def programLine : RangeLine := catLine.toRangeLine

/-- `00500000-00501000 rw-p 00000000 08:01 4294967295 /lib x (deleted)`. -/
def libraryLine : RangeLine where
  startAddr := 0x500000
  endAddr := 0x501000
  rest := "rw-p 00000000 08:01 4294967295 /lib x (deleted)".toList
  start_lt := by decide
  end_lt := by decide
  noNewline := by decide

theorem fits_programLine : Fits programLine := ⟨by decide, by decide⟩

theorem fits_libraryLine : Fits libraryLine := ⟨by decide, by decide⟩

theorem stated_before : Stated (some (fileText [programLine])) [programLine] := by
  refine ⟨rfl, fun l hl => ?_⟩
  obtain rfl := List.mem_singleton.mp hl
  exact fits_programLine

theorem stated_after :
    Stated (some (fileText [programLine, libraryLine])) [programLine, libraryLine] := by
  refine ⟨rfl, fun l hl => ?_⟩
  rcases List.mem_cons.mp hl with rfl | hl
  · exact fits_programLine
  · obtain rfl := List.mem_singleton.mp hl
    exact fits_libraryLine

/-- The page of the library is locked once it is open. -/
theorem library_isolates_opened : ∃ (s t : State) (after : List Char),
    step s (.opened 1 (some after) noJunk) = .ok t ∧ t.prot 0x500000 = .none := by
  have h₀ : emptyState.init := emptyState_init
  have I₀ : Inv emptyState [] := .init h₀.1 rfl (fun _ => rfl) rfl
  obtain ⟨input, bs, hinput, hbs, hranges⟩ := fileEntries_stated stated_before noJunk
  obtain ⟨l, ar, hrun, O, hentries, -⟩ := parse_reads I₀.owned hbs
  let s : State := { emptyState with
    arena := ar
    table := [⟨0, none⟩]
    stack := [.creating 0 0 (some 0)] }
  have hs : step emptyState (.create false (some input) noJunk) = .ok s :=
    bind_eq_ok.mpr ⟨_, hrun, rfl⟩
  let w : History := ⟨emptyState, fun _ => [], fun _ => []⟩
  let x : History := ⟨s, Function.update (fun _ => []) 0 [programLine], fun _ => []⟩
  have hcreate : Trans.Guarded Sparing History.Step w (.create false (some input) noJunk) x :=
    ⟨trivial, hs, [programLine], hinput ▸ stated_before, rfl, rfl⟩
  have r : Trans.Reach History.init (Trans.Guarded Sparing History.Step) x :=
    .step (.init (s := w) h₀) hcreate
  obtain ⟨hspared, -, owned, I⟩ := told_of_run r
  obtain ⟨after, as, hafter, has, hranges'⟩ := fileEntries_stated stated_after noJunk
  obtain ⟨t, ht⟩ : ∃ t, step s (.opened 1 (some after) noJunk) = .ok t :=
    I.exists_opened (found_opened rfl has) rfl
  refine ⟨s, t, after, ht, ?_⟩
  have hdiff : Scon.mapDiff (ranges s.before) (ranges (found (some after) noJunk)) =
      [⟨0x500000, 0x501000⟩] := by
    have hbefore : s.before = bs := before_eq rfl hentries
    rw [hbefore, found_eq has, hranges, hranges']
    rfl
  have hspare : Sparing x (.opened 1 (some after) noJunk) := by
    intro e he
    rw [hdiff] at he
    obtain rfl := List.mem_singleton.mp he
    exact ⟨by decide, by decide⟩
  let y : History := ⟨t, x.before, Function.update x.after 0 [programLine, libraryLine]⟩
  have hopened : Trans.Guarded Sparing History.Step x (.opened 1 (some after) noJunk) y :=
    ⟨hspare, ht, [programLine, libraryLine], hafter ▸ stated_after, rfl, 0, 0, some 0, [], rfl, rfl⟩
  have r' : Trans.Reach History.init (Trans.Guarded Sparing History.Step) y := .step r hopened
  have hview := Option.some.inj (I.step (Scon.lifecycle_of_reachable hspared.of_guarded) ht).1
  have hopen : t.view.entries 0 = some [⟨0x500000, 0x501000⟩] := by
    rw [← hview, ← hdiff]
    rfl
  obtain ⟨c, es, hc, hes, -⟩ := view_entries_iff.mp hopen
  have hidle : ∀ k gen, .calling k gen ∉ t.stack := by
    intro k gen hmem
    have hmem : (Frame.calling k gen).view ∈ t.view.stack := List.mem_map_of_mem hmem
    rw [← hview] at hmem
    exact List.not_mem_nil hmem
  have hnew : NewMemory [programLine] [programLine, libraryLine] 0x500000 := by
    refine ⟨libraryLine, List.mem_cons_of_mem _ (List.mem_cons_self ..), ⟨by decide, by decide⟩, ?_⟩
    rintro ⟨l', hl', heq⟩
    obtain rfl := List.mem_singleton.mp hl'
    exact absurd heq.1 (by decide)
  exact (library_isolates r' 0 c es hc hes).2 hidle _ hnew

end Run
end Subcontexts.Library
