import Subcontexts.Maps.Chain

/-! `Map_parse` makes an entry of each piece that `fgets` delivers, and a piece is a line only where
the line fits the buffer. -/

namespace Subcontexts.Maps
variable {junk : Nat → Nat → Char} {h : Heap} {maps : Map} {curr : Option Addr} {l : List Addr}
  {es : List MapEntry} {fuel i : Nat} {input : List Char} {ps : List (List Char)}

section Pieces

theorem mapEntryParse_ok_iff {junk : Nat → Char} {buffer : List Char} :
    (∃ e, mapEntryParse junk buffer = .ok e) ↔ (pathnameOf buffer).length < 128 := by
  unfold mapEntryParse
  constructor
  · rintro ⟨e, h⟩
    obtain ⟨_, hfits, -⟩ := bind_eq_ok.mp h
    exact Nat.lt_of_not_le (haltIf_eq_ok.mp hfits)
  · intro hfits
    rw [haltIf_neg (Nat.not_le_of_lt hfits), ok_bind]
    exact ⟨_, rfl⟩

def parsePieces (junk : Nat → Nat → Char) : Nat → List (List Char) → Except Halt (List MapEntry)
  | _, [] => .ok []
  | i, piece :: ps => do
    let e ← mapEntryParse (junk i) piece
    let es ← parsePieces junk (i + 1) ps
    return e :: es

theorem parsePieces_length (hes : parsePieces junk i ps = .ok es) : es.length = ps.length := by
  induction ps generalizing i es with
  | nil =>
    obtain rfl := Except.ok.inj hes
    rfl
  | cons piece ps ih =>
    obtain ⟨e, -, hes⟩ := bind_eq_ok.mp hes
    obtain ⟨es', hes', h⟩ := bind_eq_ok.mp hes
    obtain rfl := Except.ok.inj h
    rw [List.length_cons, List.length_cons, ih hes']

theorem parsePieces_getElem? {k : Nat} {piece : List Char} (hes : parsePieces junk i ps = .ok es)
    (hk : ps[k]? = some piece) :
    ∃ e, es[k]? = some e ∧ mapEntryParse (junk (i + k)) piece = .ok e := by
  induction ps generalizing i es k with
  | nil => cases hk
  | cons p ps ih =>
    obtain ⟨e, he, hes⟩ := bind_eq_ok.mp hes
    obtain ⟨es', hes', h⟩ := bind_eq_ok.mp hes
    obtain rfl := Except.ok.inj h
    cases k with
    | zero =>
      obtain rfl := Option.some.inj hk
      exact ⟨e, rfl, he⟩
    | succ k =>
      obtain ⟨e', hget, hparse⟩ := ih hes' hk
      refine ⟨e', hget, ?_⟩
      rwa [Nat.add_right_comm] at hparse

theorem parsePieces_total (hps : ∀ piece ∈ ps, (pathnameOf piece).length < 128) :
    ∃ es, parsePieces junk i ps = .ok es := by
  induction ps generalizing i with
  | nil => exact ⟨[], rfl⟩
  | cons piece ps ih =>
    rw [List.forall_mem_cons] at hps
    obtain ⟨e, he⟩ := mapEntryParse_ok_iff.mpr hps.1
    obtain ⟨es, hes⟩ := ih (i := i + 1) hps.2
    rw [parsePieces, he, ok_bind, hes, ok_bind]
    exact ⟨e :: es, rfl⟩

end Pieces

section Loop

structure Parsed (h : Heap) (maps : Map) (curr : Option Addr) (es : List MapEntry) : Prop where
  chain : ∃ l, Chain h maps.head l es ∧ curr = l.getLast?
  size : maps.size = es.length

theorem Parsed.init (h : Heap) : Parsed h mapNew none [] := ⟨⟨[], .nil, rfl⟩, rfl⟩

theorem Parsed.first {e : MapEntry} (P : Parsed h maps none es) :
    Parsed (h.alloc ⟨e, none⟩).2 ⟨some h.used, maps.size + 1⟩ (some h.used) (es ++ [e]) := by
  obtain ⟨l, C, hcurr⟩ := P.chain
  obtain rfl := List.getLast?_eq_none_iff.mp hcurr.symm
  have hnil : es = [] := List.length_eq_zero_iff.mp C.length_eq.symm
  refine ⟨⟨[h.used], ?_, rfl⟩, ?_⟩
  · rw [hnil]
    exact Chain.single
  · rw [P.size, List.length_append]
    rfl

theorem Parsed.next {e : MapEntry} {last : Addr} (P : Parsed h maps (some last) es) :
    Parsed ((h.alloc ⟨e, none⟩).2.setNext last (some h.used)) { maps with size := maps.size + 1 }
      (some h.used) (es ++ [e]) := by
  obtain ⟨l, C, hcurr⟩ := P.chain
  refine ⟨⟨l ++ [h.used], C.append hcurr.symm, ?_⟩, ?_⟩
  · rw [List.getLast?_concat]
  · rw [List.length_append, ← P.size]
    rfl

theorem mapParseLoop_spec (P : Parsed h maps curr es) (hfuel : input.length < fuel) :
    (∀ err, parsePieces junk es.length (Lines.pieces 256 fuel input) = .error err →
      mapParseLoop junk fuel input maps curr h = .error err) ∧
    ∀ es', parsePieces junk es.length (Lines.pieces 256 fuel input) = .ok es' →
      ∃ m h' curr', mapParseLoop junk fuel input maps curr h = .ok (m, h') ∧
        Parsed h' m curr' (es ++ es') := by
  induction fuel generalizing input maps curr h es with
  | zero => exact absurd hfuel (Nat.not_lt_zero _)
  | succ fuel ih =>
    by_cases hnil : input = []
    · subst input
      refine ⟨fun err herr => ?_, fun es' hes' => ⟨maps, h, curr, rfl, ?_⟩⟩
      · cases herr
      · obtain rfl := Except.ok.inj hes'
        rw [List.append_nil]
        exact P
    have hrest : (Lines.take 255 input).2.length < input.length := Lines.take_lt hnil
    rw [mapParseLoop, Lines.pieces, Lines.fgets_of_ne_nil hnil]
    generalize Lines.take 255 input = taken at hrest ⊢
    obtain ⟨piece, rest⟩ := taken
    have hrest : rest.length < fuel := Nat.lt_of_lt_of_le hrest (Nat.le_of_lt_succ hfuel)
    dsimp only
    rw [parsePieces, ← P.size]
    cases he : mapEntryParse (junk maps.size) piece with
    | error err =>
      refine ⟨fun err' h => ?_, fun es' h => ?_⟩
      · obtain rfl := Except.error.inj h
        rfl
      · cases h
    | ok e =>
      -- whichever pointer the new struct was hung from, the rest of the file is read in the same way
      have hrun : ∀ {h₁ maps₁ curr₁}, Parsed h₁ maps₁ curr₁ (es ++ [e]) →
          (∀ err, (parsePieces junk (maps.size + 1) (Lines.pieces 256 fuel rest) >>=
              fun es => Except.ok (e :: es)) = .error err →
            mapParseLoop junk fuel rest maps₁ curr₁ h₁ = .error err) ∧
          ∀ es', (parsePieces junk (maps.size + 1) (Lines.pieces 256 fuel rest) >>=
              fun es => Except.ok (e :: es)) = .ok es' →
            ∃ m h' curr', mapParseLoop junk fuel rest maps₁ curr₁ h₁ = .ok (m, h') ∧
              Parsed h' m curr' (es ++ es') := by
        intro h₁ maps₁ curr₁ P₁
        obtain ⟨herror, hok⟩ := ih P₁ hrest
        rw [List.length_append, List.length_singleton, ← P.size] at herror hok
        constructor
        · intro err hps
          rcases bind_eq_error.mp hps with hps | ⟨es', -, hps⟩
          · exact herror err hps
          · cases hps
        · intro es' hps
          obtain ⟨es', hes', hps⟩ := bind_eq_ok.mp hps
          obtain rfl := Except.ok.inj hps
          obtain ⟨m, h', curr', hloop, P'⟩ := hok es' hes'
          rw [List.append_assoc, List.singleton_append] at P'
          exact ⟨m, h', curr', hloop, P'⟩
      cases curr with
      | none => exact hrun P.first
      | some last => exact hrun P.next

end Loop

section Main

theorem mapParse_ok {es' : List MapEntry}
    (hes : parsePieces junk 0 (Lines.pieces 256 (input.length + 1) input) = .ok es') :
    ∃ m h', mapParse junk (some input) h = .ok (some m, h') ∧ h'.Shows m es' ∧
      m.size = es'.length := by
  obtain ⟨m, h', curr', hloop, P⟩ :=
    (mapParseLoop_spec (Parsed.init h) (Nat.lt_succ_self input.length)).2 es' hes
  obtain ⟨l, C, -⟩ := P.chain
  refine ⟨m, h', ?_, ⟨l, C⟩, P.size⟩
  unfold mapParse
  dsimp only
  rw [hloop, ok_bind]
  rfl

theorem mapParse_eq_ok {m : Option Map} {h' : Heap}
    (hrun : mapParse junk (some input) h = .ok (m, h')) :
    ∃ es', parsePieces junk 0 (Lines.pieces 256 (input.length + 1) input) = .ok es' ∧
      ∃ maps, m = some maps ∧ maps.size = es'.length ∧ h'.Shows maps es' := by
  cases hes : parsePieces junk 0 (Lines.pieces 256 (input.length + 1) input) with
  | ok es' =>
    obtain ⟨maps, h'', hrun', hshows, hsize⟩ := mapParse_ok (h := h) hes
    obtain ⟨rfl, rfl⟩ := Prod.mk.inj (Except.ok.inj (hrun.symm.trans hrun'))
    exact ⟨es', rfl, maps, rfl, hsize, hshows⟩
  | error err =>
    have herror := (mapParseLoop_spec (Parsed.init h) (Nat.lt_succ_self input.length)).1 err hes
    unfold mapParse at hrun
    dsimp only at hrun
    rw [herror] at hrun
    cases hrun

theorem length_lt_file (ls : List Lines.Line) : ls.length < (Lines.file ls).length + 1 := by
  induction ls with
  | nil => exact Nat.one_pos
  | cons l ls ih =>
    rw [Lines.file_cons, List.length_append, List.length_cons, List.length_cons]
    omega

theorem mapParse_lines_iff (junk : Nat → Nat → Char) (ls : List Lines.Line) (h : Heap) :
    (∃ m h' es, mapParse junk (some (Lines.file ls)) h = .ok (some m, h') ∧ h'.Shows m es ∧
      m.size = ls.length ∧ es.length = ls.length ∧ ∀ i l, ls[i]? = some l →
        ∃ e, es[i]? = some e ∧ mapEntryParse (junk i) l.text = .ok e) ↔
      ∀ l ∈ ls, l.text.length ≤ 255 ∧ (pathnameOf l.text).length < 128 := by
  have hcount : (Lines.pieces 256 ((Lines.file ls).length + 1) (Lines.file ls)).length = ls.length ↔
      ∀ l ∈ ls, l.text.length < 256 :=
    Lines.length_pieces_iff (by decide) (Nat.lt_succ_self _)
  constructor
  · rintro ⟨m, h', es, hrun, hshows, hsize, -, hentries⟩ l hl
    obtain ⟨es', hes', maps, hm, hsize', -⟩ := mapParse_eq_ok hrun
    obtain rfl := Option.some.inj hm
    have hfit : ∀ l ∈ ls, l.text.length < 256 := by
      rw [← hcount, ← parsePieces_length hes', ← hsize', hsize]
    obtain ⟨i, hi⟩ := List.mem_iff_getElem?.mp hl
    obtain ⟨e, -, he⟩ := hentries i l hi
    exact ⟨Nat.le_of_lt_succ (hfit l hl), mapEntryParse_ok_iff.mp ⟨e, he⟩⟩
  · intro hfit
    have hpieces : Lines.pieces 256 ((Lines.file ls).length + 1) (Lines.file ls) =
        ls.map Lines.Line.text :=
      Lines.pieces_eq (fun l hl => Nat.lt_succ_of_le (hfit l hl).1) (length_lt_file ls)
    have hshort : ∀ piece ∈ ls.map Lines.Line.text, (pathnameOf piece).length < 128 := by
      intro piece hpiece
      obtain ⟨l, hl, rfl⟩ := List.mem_map.mp hpiece
      exact (hfit l hl).2
    obtain ⟨es, hes⟩ : ∃ es, parsePieces junk 0 (ls.map Lines.Line.text) = .ok es :=
      parsePieces_total hshort
    have hlength := parsePieces_length hes
    rw [List.length_map] at hlength
    obtain ⟨m, h', hrun, hshows, hsize⟩ := mapParse_ok (h := h) (hpieces ▸ hes)
    refine ⟨m, h', es, hrun, hshows, hsize.trans hlength, hlength, fun i l hi => ?_⟩
    have hpiece : (ls.map Lines.Line.text)[i]? = some l.text := by
      rw [List.getElem?_map, hi]
      rfl
    obtain ⟨e, hget, hparse⟩ := parsePieces_getElem? hes hpiece
    rw [Nat.zero_add] at hparse
    exact ⟨e, hget, hparse⟩

end Main

section Run

def longLine : Lines.Line where
  chars := "00400000-0040b000 r-xp 00000000 08:01 1234 /a ".toList ++ List.replicate 253 'b'
  noNewline := by decide

def emptyHeap : Heap := ⟨fun _ => ⟨⟨⟨0, 0⟩, false, false, false, false, 0, 0, 0, 0, []⟩, none⟩, 0⟩

/-- The rest of the line becomes an entry of its own, which starts at the last address. -/
theorem mapParse_longLine : ∃ m h',
    mapParse (fun _ _ => '-') (some (Lines.file [longLine])) emptyHeap = .ok (some m, h') ∧
      m.size = 2 ∧ (h'.mem 1).startAddr = 2 ^ 64 - 1 := by
  have hrun : ((mapParse (fun _ _ => '-') (some (Lines.file [longLine])) emptyHeap).toOption.bind
      fun r => r.1.map fun m => (m.size, (r.2.mem 1).startAddr)) = some (2, 2 ^ 64 - 1) := by
    decide +kernel
  cases hparse : mapParse (fun _ _ => '-') (some (Lines.file [longLine])) emptyHeap with
  | error err =>
    rw [hparse] at hrun
    cases hrun
  | ok r =>
    obtain ⟨maps, h'⟩ := r
    rw [hparse] at hrun
    obtain ⟨m, rfl, hm⟩ := Option.map_eq_some_iff.mp hrun
    obtain ⟨hsize, hstart⟩ := Prod.mk.inj hm
    exact ⟨m, h', rfl, hsize, hstart⟩

end Run
end Subcontexts.Maps
