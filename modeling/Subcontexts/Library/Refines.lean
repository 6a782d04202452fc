import Subcontexts.Library.Reads

/-! A run of the library over lists in memory is a run of its calls over the ranges alone: the maps
that are parsed, compared, read and freed behind the table never get in each other's way. -/

namespace Subcontexts.Library
open Maps
open Lifetime (Keeps)

section View

def Scb.view (ar : Arena) (c : Scb) : Scon.Scb :=
  ⟨c.libhandle,
    match c.memmap with
    | none => .notSet
    | some memmap =>
      match ar.entries memmap with
      | .ok es => .live (ranges es)
      | .error _ => .freed⟩

def Frame.view : Frame → Scon.Frame
  | .creating h gen _ => .creating h gen
  | .calling h gen => .calling h gen

def State.view (s : State) : Scon.State :=
  ⟨s.table.map (Scb.view s.arena), s.capacity, s.gen, s.prot, s.stack.map Frame.view, s.closed⟩

def State.before (s : State) : List MapEntry :=
  match s.stack with
  | .creating _ _ (some before) :: _ => (s.arena.entries before).toOption.getD []
  | _ => []

def found (mapsfile : Option (List Char)) (junk : Nat → Nat → Char) : List MapEntry :=
  ((mapsfile.map (fileEntries junk)).bind Except.toOption).getD []

def Action.view (s : State) : Action → Scon.Action
  | .create moved _ _ => .create moved
  | .opened libhandle after junk => .opened libhandle (ranges s.before) (ranges (found after junk))
  | .call scon => .call scon
  | .ret => .ret
  | .close scon => .close scon
  | .fault siErrno addr => .fault siErrno addr
  | .remap start len p => .remap start len p

/-- The maps files are there when they are needed, and no pathname in them is too long. -/
def Found (s : State) : Action → Prop
  | .create _ before junk => ∀ input, before = some input → ∃ es, fileEntries junk input = .ok es
  | .opened _ after junk => (∃ input es, after = some input ∧ fileEntries junk input = .ok es) ∧
      ∀ h gen before stack, s.stack = .creating h gen before :: stack → before ≠ none
  | _ => True

end View

section Inv

def befores (stack : List Frame) : List Addr :=
  stack.filterMap fun
    | .creating _ _ before => before
    | .calling _ _ => none

def Scb.inUse (ar : Arena) (c : Scb) : Option Addr := c.memmap.filter fun a => (ar.entries a).isOk

structure Inv (s : State) (os : List (Addr × List Addr)) : Prop where
  owned : Owned s.arena os
  roots : (os.map Prod.fst).Perm (befores s.stack ++ s.table.filterMap (Scb.inUse s.arena))
  made : ∀ c ∈ s.table, ∀ a, c.memmap = some a → a < s.arena.maps.length

variable {s t : State} {owned : List (Addr × List Addr)} {ar ar' : Arena} {a : Addr} {c : Scb}

theorem isOk_iff {es : Except Halt (List MapEntry)} : es.isOk = true ↔ ∃ x, es = .ok x := by
  cases es with
  | ok x => exact ⟨fun _ => ⟨x, rfl⟩, fun _ => rfl⟩
  | error e => exact ⟨fun h => absurd h Bool.false_ne_true, fun ⟨_, h⟩ => by cases h⟩

theorem inUse_eq_some (O : Owned ar owned) :
    c.inUse ar = some a ↔ c.memmap = some a ∧ a ∈ owned.map Prod.fst := by
  unfold Scb.inUse
  rw [Option.filter_eq_some_iff, isOk_iff, entries_ok_iff O]

theorem view_congr (h : ∀ a, c.memmap = some a → ar'.entries a = ar.entries a) :
    c.view ar' = c.view ar := by
  obtain ⟨l, memmap⟩ := c
  cases memmap with
  | none => rfl
  | some a =>
    unfold Scb.view
    dsimp only
    rw [h a rfl]

theorem inUse_congr (h : ∀ a, c.memmap = some a → ar'.entries a = ar.entries a) :
    c.inUse ar' = c.inUse ar := by
  obtain ⟨l, memmap⟩ := c
  cases memmap with
  | none => rfl
  | some a =>
    unfold Scb.inUse
    rw [Option.filter_some, Option.filter_some, h a rfl]

theorem Inv.init {s : State} (hs : s.view.init) (hused : s.arena.heap.used = 0)
    (hfreed : ∀ a, s.arena.freed a = false) (hmaps : s.arena.maps = []) : Inv s [] := by
  obtain ⟨htable, -, -, hstack, -⟩ := hs
  have htable : s.table = [] := List.map_eq_nil_iff.mp htable
  have hstack : s.stack = [] := List.map_eq_nil_iff.mp hstack
  refine ⟨⟨fun o ho => absurd ho (List.not_mem_nil), List.nodup_nil, fun i m hm => ?_, ?_,
    fun a _ => hfreed a⟩, ?_, fun c hc => ?_⟩
  · rw [hmaps] at hm
    cases hm
  · have hempty : {a | a < s.arena.heap.used ∧ s.arena.freed a = false} = ∅ := by
      ext a
      simp [hused]
    rw [hempty]
    exact Tiles.nil
  · rw [hstack, htable]
    exact List.Perm.nil
  · rw [htable] at hc
    cases hc

theorem Inv.nodup (I : Inv s owned) :
    (befores s.stack ++ s.table.filterMap (Scb.inUse s.arena)).Nodup :=
  I.roots.nodup_iff.mp I.owned.ids

theorem Inv.inUse_unique (I : Inv s owned) {h k : Nat} {d : Scb} (hc : s.table[h]? = some c)
    (hd : s.table[k]? = some d) (hca : c.inUse s.arena = some a) (hda : d.inUse s.arena = some a) :
    h = k := by
  have hpair := List.pairwise_filterMap.mp (List.nodup_append.mp I.nodup).2.1
  rw [List.pairwise_iff_getElem] at hpair
  obtain ⟨hh, rfl⟩ := List.getElem?_eq_some_iff.mp hc
  obtain ⟨hk, rfl⟩ := List.getElem?_eq_some_iff.mp hd
  rcases Nat.lt_trichotomy h k with hlt | heq | hgt
  · exact absurd rfl (hpair h k hh hk hlt a hca a hda)
  · exact heq
  · exact absurd rfl (hpair k h hk hh hgt a hda a hca)

end Inv

section Entries
variable {s : State} {owned : List (Addr × List Addr)} {scon : Nat} {es : List Scon.MapEntry}

theorem live_iff {ar : Arena} {c : Scb} {l : Nat} :
    c.view ar = ⟨l, .live es⟩ ↔ c.libhandle = l ∧ ∃ es', c.entries ar = .ok es' ∧ es = ranges es' := by
  obtain ⟨libhandle, memmap⟩ := c
  cases memmap with
  | none =>
    constructor
    · intro h
      cases (Scon.Scb.mk.inj h).2
    · rintro ⟨-, es', h, -⟩
      cases h
  | some a =>
    have hentries : Scb.entries ar ⟨libhandle, some a⟩ = ar.entries a := rfl
    rw [hentries]
    unfold Scb.view
    dsimp only
    cases ar.entries a with
    | ok es' =>
      constructor
      · intro h
        obtain ⟨hl, hes⟩ := Scon.Scb.mk.inj h
        exact ⟨hl, es', rfl, (Scon.MemMap.live.inj hes).symm⟩
      · rintro ⟨rfl, es'', h, rfl⟩
        obtain rfl := Except.ok.inj h
        rfl
    | error e =>
      constructor
      · intro h
        cases (Scon.Scb.mk.inj h).2
      · rintro ⟨-, es', h, -⟩
        cases h

theorem view_entries_iff : s.view.entries scon = some es ↔
    ∃ c es', getScb s scon = .ok c ∧ c.entries s.arena = .ok es' ∧ es = ranges es' := by
  have hget : s.view.table[scon]? = (s.table[scon]?).map (Scb.view s.arena) := List.getElem?_map ..
  unfold Scon.State.entries
  rw [Scon.entriesAt_eq_some, hget]
  unfold getScb
  cases s.table[scon]? with
  | none =>
    constructor
    · rintro ⟨l, h⟩
      cases h
    · rintro ⟨c, es', h, -⟩
      cases h
  | some c =>
    constructor
    · rintro ⟨l, h⟩
      obtain ⟨-, es', hes, rfl⟩ := live_iff.mp (Option.some.inj h)
      exact ⟨c, es', rfl, hes, rfl⟩
    · rintro ⟨c', es', h, hes, rfl⟩
      obtain rfl := Except.ok.inj h
      exact ⟨c.libhandle, congrArg some (live_iff.mpr ⟨rfl, es', hes, rfl⟩)⟩

def outcome : Except Halt MapEntry → Scon.Outcome
  | .ok e => .granted e.toRange
  | .error (.exit _) => .gaveUp
  | .error _ => .undefined

theorem findEntry_view {ar : Arena} (O : Owned ar owned) (addr : Nat) (table : List Scb) :
    Scon.findEntry (table.map (Scb.view ar)) addr = outcome (findEntry ar addr table) := by
  induction table with
  | nil => rfl
  | cons c table ih =>
    obtain ⟨libhandle, memmap⟩ := c
    cases memmap with
    | none => rfl
    | some a =>
      by_cases ha : a ∈ owned.map Prod.fst
      · obtain ⟨l, hl⟩ := exists_mem_of_mem_ids ha
        obtain ⟨m, hget, C⟩ := O.chain hl
        have hentries := O.entries_eq hl
        have hloop : findLoop ar addr (ar.heap.used + 1) m.head = _ :=
          findLoop_spec C.holds (fun b hb => (O.taken hl hb).2) (Nat.lt_succ_of_le C.length_le)
        have hview : Scb.view ar ⟨libhandle, some a⟩ =
            ⟨libhandle, .live (ranges (l.map fun b => (ar.heap.mem b).toMapEntry))⟩ :=
          live_iff.mpr ⟨rfl, _, hentries, rfl⟩
        rw [List.map_cons, hview, Scon.findEntry, findEntry]
        dsimp only
        rw [find?_ranges]
        show _ = outcome (do let m ← ar.get a; _)
        rw [hget, ok_bind, hloop, ok_bind]
        cases (l.map fun b => (ar.heap.mem b).toMapEntry).find?
          fun e => e.toRange.contains addr with
        | none => exact ih
        | some e =>
          dsimp only
          rw [hentries]
          rfl
      · have hview : Scb.view ar ⟨libhandle, some a⟩ = ⟨libhandle, .freed⟩ := by
          unfold Scb.view
          dsimp only
          rw [entries_of_not_mem O ha]
        have hrun : findEntry ar addr (⟨libhandle, some a⟩ :: table) = .error .fault := by
          rw [findEntry]
          show (do let m ← ar.get a; _) = _
          rw [get_of_not_mem O ha]
          rfl
        rw [hrun, List.map_cons, hview]
        rfl

theorem foreign_iff (start len : Nat) : s.view.foreign start len ↔ s.foreign start len := by
  unfold Scon.State.foreign State.foreign
  show (∀ c ∈ s.table.map (Scb.view s.arena), _) ↔ _
  rw [List.forall_mem_map]
  refine forall₂_congr fun c _ => ?_
  obtain ⟨libhandle, memmap⟩ := c
  cases memmap with
  | none => exact Iff.rfl
  | some a =>
    have hentries : Scb.entries s.arena ⟨libhandle, some a⟩ = s.arena.entries a := rfl
    rw [hentries]
    unfold Scb.view
    dsimp only
    cases s.arena.entries a with
    | ok es => exact List.forall_mem_map
    | error e => exact Iff.rfl

end Entries
end Subcontexts.Library
