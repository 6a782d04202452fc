import Subcontexts.Maps.Parse

/-! The lines that the kernel writes to a maps file, and what `MapEntry_parse` reads of them. It
compares the third permission with a letter that the kernel does not write. -/

namespace Subcontexts.Maps
open Scanf

/-- A line of a maps file; `blanks` is the padding in front of the pathname, which may be absent.
The numbers fit the fields of `MapEntry`. -/
structure MapsLine where
  startAddr : Nat
  endAddr : Nat
  r : Bool
  w : Bool
  x : Bool
  p : Bool
  offset : Nat
  devMajor : Nat
  devMinor : Nat
  inode : Nat
  blanks : Nat
  pathname : List Char
  start_lt : startAddr < 2 ^ 64
  end_lt : endAddr < 2 ^ 64
  offset_lt : offset < 2 ^ 32
  major_lt : devMajor < 2 ^ 32
  minor_lt : devMinor < 2 ^ 32
  inode_lt : inode < 2 ^ 31
  pathname_lt : pathname.length < 128
  noBlank : ∀ c ∈ pathname, isSpace c = false
  separated : pathname ≠ [] → 0 < blanks

namespace MapsLine
variable (l : MapsLine)

def perms : List Char :=
  [if l.r then 'r' else '-', if l.w then 'w' else '-', if l.x then 'x' else '-',
    if l.p then 'p' else 's']

def ending : List Char := List.replicate l.blanks ' ' ++ (l.pathname ++ ['\n'])

def text : List Char :=
  padded 8 16 l.startAddr ++ '-' :: (padded 8 16 l.endAddr ++ ' ' :: (l.perms ++ ' ' ::
    (padded 8 16 l.offset ++ ' ' :: (padded 2 16 l.devMajor ++ ':' :: (padded 2 16 l.devMinor ++
      ' ' :: (padded 0 10 l.inode ++ l.ending))))))

def entry : MapEntry :=
  ⟨⟨l.startAddr, l.endAddr⟩, l.r, l.w, l.x, l.p, l.offset, l.devMajor, l.devMinor, l.inode,
    l.pathname⟩

end MapsLine

section Scan
variable (l : MapsLine)

theorem ends_cons {base : Nat} {c : Char} {rest : List Char} (h : isDigit base c = false)
    (hx : c ≠ 'x') (hX : c ≠ 'X') : Ends base (c :: rest) := by
  intro d hd
  obtain rfl := Option.some.inj hd
  exact ⟨h, hx, hX⟩

theorem run_blank_padded {base width n : Nat} {rest : List Char} (hone : 1 < base)
    (hbase : base ≤ 16) : Directive.space.run (' ' :: (padded width base n ++ rest)) =
      some (none, padded width base n ++ rest) := by
  have hhead : ∀ c ∈ (padded width base n ++ rest).head?, isSpace c = false := by
    intro c hc
    rw [List.head?_append_of_ne_nil _ padded_ne_nil] at hc
    exact not_isSpace_of_isDigit (isDigit_padded hone hbase (List.mem_of_mem_head? hc))
  apply run_space (w := [' ']) _ hhead
  simp [isSpace]

theorem run_blank_perms {rest : List Char} :
    Directive.space.run (' ' :: (l.perms ++ rest)) = some (none, l.perms ++ rest) := by
  have hhead : ∀ c ∈ (l.perms ++ rest).head?, isSpace c = false := by
    intro c hc
    obtain rfl := Option.some.inj hc
    split <;> rfl
  apply run_space (w := [' ']) _ hhead
  simp [isSpace]

theorem ends_ending : Ends 10 l.ending := by
  intro c hc
  have hspace : ∀ n (cs : List Char), Ends 10 (List.replicate (n + 1) ' ' ++ cs) := fun n cs =>
    ends_cons (by decide) (by decide) (by decide)
  unfold MapsLine.ending at hc
  cases hblanks : l.blanks with
  | zero =>
    have hnil : l.pathname = [] := by
      by_contra hne
      exact absurd (l.separated hne) (by omega)
    rw [hblanks, hnil] at hc
    obtain rfl := Option.some.inj hc
    exact ⟨by decide, by decide, by decide⟩
  | succ n =>
    rw [hblanks] at hc
    exact hspace n _ c hc

theorem scan_ending : scan [.space, .word] l.ending =
    if l.pathname = [] then [] else [.text l.pathname] := by
  have hspaces : ∀ c ∈ List.replicate l.blanks ' ', isSpace c = true := by
    intro c hc
    obtain rfl := List.eq_of_mem_replicate hc
    decide
  by_cases hnil : l.pathname = []
  · rw [if_pos hnil]
    have hblank : ∀ c ∈ l.ending, isSpace c = true := by
      intro c hc
      unfold MapsLine.ending at hc
      rw [hnil, List.nil_append] at hc
      rcases List.mem_append.mp hc with hc | hc
      · exact hspaces c hc
      · obtain rfl := List.mem_singleton.mp hc
        decide
    have hrun : Directive.space.run l.ending = some (none, []) := by
      have hend : ∀ c ∈ ([] : List Char).head?, isSpace c = false := by simp
      have happend := run_space hblank hend
      rwa [List.append_nil] at happend
    rw [scan_cons hrun]
    rfl
  · rw [if_neg hnil]
    have hhead : ∀ c ∈ (l.pathname ++ ['\n']).head?, isSpace c = false := by
      intro c hc
      rw [List.head?_append_of_ne_nil _ hnil] at hc
      exact l.noBlank c (List.mem_of_mem_head? hc)
    have hspace : Directive.space.run l.ending = some (none, l.pathname ++ ['\n']) :=
      run_space hspaces hhead
    have hword : Directive.word.run (l.pathname ++ ['\n']) = some (some (.text l.pathname), ['\n']) := by
      have hnewline : ∀ c ∈ ['\n'].head?, isSpace c = true := by
        intro c hc
        obtain rfl := Option.some.inj hc
        decide
      have hblanks : ∀ c ∈ ([] : List Char), isSpace c = true := by simp
      apply run_word hblanks hnil l.noBlank hnewline
    rw [scan_cons hspace, scan_cons hword]
    rfl

theorem scan_text : scan entryFormat l.text =
    [.number l.startAddr, .number l.endAddr, .text l.perms, .number l.offset, .number l.devMajor,
      .number l.devMinor, .number l.inode] ++
      if l.pathname = [] then [] else [.text l.pathname] := by
  have hchars : ∀ rest, (Directive.chars 4).run (l.perms ++ rest) = some (some (.text l.perms), rest) :=
    fun rest => run_chars (w := l.perms) (by simp [MapsLine.perms])
  have hdash : ∀ rest, Ends 16 ('-' :: rest) := fun _ =>
    ends_cons (by decide) (by decide) (by decide)
  have hblank : ∀ rest, Ends 16 (' ' :: rest) := fun _ =>
    ends_cons (by decide) (by decide) (by decide)
  have hcolon : ∀ rest, Ends 16 (':' :: rest) := fun _ =>
    ends_cons (by decide) (by decide) (by decide)
  unfold entryFormat MapsLine.text
  rw [scan_cons (run_pointer l.start_lt (hdash _)), scan_cons run_lit,
    scan_cons (run_pointer l.end_lt (hblank _)), scan_cons (run_blank_perms l), scan_cons (hchars _),
    scan_cons (run_blank_padded (by decide) (by decide)), scan_cons (run_hex l.offset_lt (hblank _)),
    scan_cons (run_blank_padded (by decide) (by decide)), scan_cons (run_hex l.major_lt (hcolon _)),
    scan_cons run_lit, scan_cons (run_hex l.minor_lt (hblank _)),
    scan_cons (run_blank_padded (by decide) (by decide)),
    scan_cons (run_dec l.inode_lt (ends_ending l)), scan_ending]
  rfl

theorem pathnameOf_text : pathnameOf l.text = l.pathname := by
  unfold pathnameOf
  rw [scan_text]
  by_cases hnil : l.pathname = []
  · rw [if_pos hnil, hnil]
    rfl
  · rw [if_neg hnil]
    rfl

theorem mapEntryParse_text (junk : Nat → Char) :
    mapEntryParse junk l.text = .ok { l.entry with e := false } := by
  have hvalues (i : Nat) (hi : i < 7) : (scan entryFormat l.text)[i]? =
      ([.number l.startAddr, .number l.endAddr, .text l.perms, .number l.offset,
        .number l.devMajor, .number l.devMinor, .number l.inode] : List Value)[i]? := by
    rw [scan_text, List.getElem?_append_left hi]
  have hr : (if l.r then 'r' else '-') = 'r' ↔ l.r = true := by cases l.r <;> decide
  have hw : (if l.w then 'w' else '-') = 'w' ↔ l.w = true := by cases l.w <;> decide
  have hx : (if l.x then 'x' else '-') ≠ 'e' := by cases l.x <;> decide
  have hp : (if l.p then 'p' else 's') = 'p' ↔ l.p = true := by cases l.p <;> decide
  unfold mapEntryParse
  rw [pathnameOf_text, haltIf_neg (Nat.not_le_of_lt l.pathname_lt)]
  simp only [numberAt, textAt, hvalues 0 (by decide), hvalues 1 (by decide), hvalues 2 (by decide),
    hvalues 3 (by decide), hvalues 4 (by decide), hvalues 5 (by decide), hvalues 6 (by decide),
    MapsLine.perms, MapsLine.entry, List.getElem?_cons_zero, List.getElem?_cons_succ,
    Option.getD_some, Int.toNat_natCast, hr, hw, hx, hp, ok_bind, decide_false, Bool.decide_eq_true]
  rfl

end Scan

section Ranges

/-- A line that begins with a range; behind it stands whatever the kernel writes there. -/
structure RangeLine where
  startAddr : Nat
  endAddr : Nat
  rest : List Char
  start_lt : startAddr < 2 ^ 64
  end_lt : endAddr < 2 ^ 64
  noNewline : '\n' ∉ rest

namespace RangeLine
variable (l : RangeLine)

def chars : List Char :=
  padded 8 16 l.startAddr ++ '-' :: (padded 8 16 l.endAddr ++ ' ' :: l.rest)

theorem newline_not_mem_padded {width base n : Nat} (hone : 1 < base) (hbase : base ≤ 16) :
    '\n' ∉ padded width base n := by
  intro h
  have hdigit := not_isSpace_of_isDigit (isDigit_padded hone hbase h)
  exact absurd hdigit (by decide)

theorem newline_not_mem_chars : '\n' ∉ l.chars := by
  have hhex : ∀ n, '\n' ∉ padded 8 16 n := fun _ =>
    newline_not_mem_padded (by decide) (by decide)
  simp [chars, hhex, l.noNewline]

def line : Lines.Line := ⟨l.chars, l.newline_not_mem_chars⟩

def range : Scon.MapEntry := ⟨l.startAddr, l.endAddr⟩

theorem scan_line : scan entryFormat l.line.text = .number l.startAddr :: .number l.endAddr ::
    scan (entryFormat.drop 3) (' ' :: (l.rest ++ ['\n'])) := by
  have hdash : ∀ rest, Ends 16 ('-' :: rest) := fun _ =>
    ends_cons (by decide) (by decide) (by decide)
  have hblank : ∀ rest, Ends 16 (' ' :: rest) := fun _ =>
    ends_cons (by decide) (by decide) (by decide)
  unfold line Lines.Line.text chars
  simp only [List.append_assoc, List.cons_append]
  unfold entryFormat
  rw [scan_cons (run_pointer l.start_lt (hdash _)), scan_cons run_lit,
    scan_cons (run_pointer l.end_lt (hblank _))]
  rfl

theorem mapEntryParse_line (junk : Nat → Char) (hname : (pathnameOf l.line.text).length < 128) :
    ∃ e, mapEntryParse junk l.line.text = .ok e ∧ e.toRange = l.range := by
  obtain ⟨e, he⟩ := mapEntryParse_ok_iff.mpr hname
  refine ⟨e, he, ?_⟩
  unfold mapEntryParse at he
  rw [haltIf_neg (Nat.not_le_of_lt hname), ok_bind] at he
  obtain rfl := Except.ok.inj he
  simp only [scan_line, numberAt, List.getElem?_cons_zero, List.getElem?_cons_succ,
    Int.toNat_natCast]
  rfl

end RangeLine

theorem parsePieces_rangeLines (junk : Nat → Nat → Char) {ls : List RangeLine}
    (hname : ∀ l ∈ ls, (pathnameOf l.line.text).length < 128) (i : Nat) :
    ∃ es, parsePieces junk i (ls.map fun l => l.line.text) = .ok es ∧
      es.map MapEntry.toRange = ls.map RangeLine.range := by
  induction ls generalizing i with
  | nil => exact ⟨[], rfl, rfl⟩
  | cons l ls ih =>
    rw [List.forall_mem_cons] at hname
    obtain ⟨e, he, hrange⟩ := l.mapEntryParse_line (junk i) hname.1
    obtain ⟨es, hes, hranges⟩ := ih hname.2 (i + 1)
    refine ⟨e :: es, ?_, ?_⟩
    · rw [List.map_cons, parsePieces, he, ok_bind, hes, ok_bind]
      rfl
    · rw [List.map_cons, List.map_cons, hrange, hranges]

end Ranges

section File
variable (l : MapsLine)

def MapsLine.toRangeLine : RangeLine where
  startAddr := l.startAddr
  endAddr := l.endAddr
  rest := l.perms ++ ' ' :: (padded 8 16 l.offset ++ ' ' :: (padded 2 16 l.devMajor ++ ':' ::
    (padded 2 16 l.devMinor ++ ' ' :: (padded 0 10 l.inode ++
      (List.replicate l.blanks ' ' ++ l.pathname)))))
  start_lt := l.start_lt
  end_lt := l.end_lt
  noNewline := by
    have hhex : ∀ width n, '\n' ∉ padded width 16 n := fun _ _ =>
      RangeLine.newline_not_mem_padded (by decide) (by decide)
    have hdec : '\n' ∉ padded 0 10 l.inode :=
      RangeLine.newline_not_mem_padded (by decide) (by decide)
    have hperms : '\n' ∉ l.perms := by
      unfold MapsLine.perms
      cases l.r <;> cases l.w <;> cases l.x <;> cases l.p <;> decide
    have hname : '\n' ∉ l.pathname := fun h => absurd (l.noBlank _ h) (by decide)
    simp [hhex, hdec, hperms, hname]

theorem MapsLine.toRangeLine_text : l.toRangeLine.line.text = l.text := by
  simp only [toRangeLine, RangeLine.line, RangeLine.chars, Lines.Line.text, MapsLine.text,
    MapsLine.ending, List.append_assoc, List.cons_append]

theorem parsePieces_lines (junk : Nat → Nat → Char) (ls : List MapsLine) (i : Nat) :
    parsePieces junk i (ls.map MapsLine.text) =
      .ok (ls.map fun l => { l.entry with e := false }) := by
  induction ls generalizing i with
  | nil => rfl
  | cons l ls ih =>
    rw [List.map_cons, parsePieces, mapEntryParse_text, ok_bind, ih, ok_bind]
    rfl

/-- The map of a file of such lines states what they state, but for the execute permission. -/
theorem mapParse_states (junk : Nat → Nat → Char) (ls : List MapsLine) (h : Heap)
    (hfit : ∀ l ∈ ls, l.text.length ≤ 255) :
    ∃ m h' es, mapParse junk (some (Lines.file (ls.map fun l => l.toRangeLine.line))) h =
        .ok (some m, h') ∧ h'.Shows m es ∧ m.size = ls.length ∧
      es = ls.map (fun l => { l.entry with e := false }) ∧
      (es = ls.map MapsLine.entry ↔ ∀ l ∈ ls, l.x = false) := by
  have htexts : (ls.map fun l => l.toRangeLine.line).map Lines.Line.text = ls.map MapsLine.text := by
    rw [List.map_map]
    exact List.map_congr_left fun l _ => l.toRangeLine_text
  have hshort : ∀ l ∈ ls.map fun l => l.toRangeLine.line, l.text.length < 256 := by
    intro l hl
    obtain ⟨l', hl', rfl⟩ := List.mem_map.mp hl
    rw [MapsLine.toRangeLine_text]
    exact Nat.lt_succ_of_le (hfit l' hl')
  have hes := parsePieces_lines junk ls 0
  rw [← htexts, ← Lines.pieces_eq hshort (length_lt_file _)] at hes
  obtain ⟨m, h', hrun, hshows, hsize⟩ := mapParse_ok (h := h) hes
  refine ⟨m, h', _, hrun, hshows, hsize.trans (List.length_map _), rfl, ?_⟩
  rw [List.map_inj_left]
  refine forall₂_congr fun l _ => ⟨fun heq => (congrArg MapEntry.e heq).symm, fun hx => ?_⟩
  rw [MapsLine.entry, hx]

end File

section Main

/-- The line is read back exactly if its memory is not executable, and two lines give one entry
exactly if they agree in all but that. -/
theorem mapEntryParse_states_iff (l : MapsLine) (junk : Nat → Char) :
    (mapEntryParse junk l.text = .ok l.entry ↔ l.x = false) ∧
      ∀ (l' : MapsLine) (junk' : Nat → Char),
        mapEntryParse junk l.text = mapEntryParse junk' l'.text ↔
          { l.entry with e := false } = { l'.entry with e := false } := by
  refine ⟨?_, fun l' junk' => ?_⟩
  · rw [mapEntryParse_text]
    constructor
    · intro h
      exact (congrArg MapEntry.e (Except.ok.inj h)).symm
    · intro hx
      show Except.ok { l.entry with e := false } = Except.ok { l.entry with e := l.x }
      rw [hx]
  · rw [mapEntryParse_text, mapEntryParse_text]
    exact ⟨Except.ok.inj, congrArg Except.ok⟩

end Main

section Run

/-- `00400000-0040b000 r-xp 00000000 08:01 1234 /cat`. -/
def catLine : MapsLine where
  startAddr := 0x400000
  endAddr := 0x40b000
  r := true
  w := false
  x := true
  p := true
  offset := 0
  devMajor := 8
  devMinor := 1
  inode := 1234
  blanks := 1
  pathname := ['/', 'c', 'a', 't']
  start_lt := by decide
  end_lt := by decide
  offset_lt := by decide
  major_lt := by decide
  minor_lt := by decide
  inode_lt := by decide
  pathname_lt := by decide
  noBlank := by simp [isSpace]
  separated := fun _ => Nat.one_pos

/-- Code is read as data that cannot be executed, and is not told apart from it. -/
theorem mapEntryParse_catLine :
    catLine.text = "00400000-0040b000 r-xp 00000000 08:01 1234 /cat\n".toList ∧
      catLine.entry ≠ { catLine with x := false }.entry ∧
      ∀ junk, mapEntryParse junk catLine.text ≠ .ok catLine.entry ∧
        mapEntryParse junk catLine.text = mapEntryParse junk { catLine with x := false }.text := by
  refine ⟨by decide, by decide, fun junk => ?_⟩
  rw [mapEntryParse_text, mapEntryParse_text]
  refine ⟨fun h => ?_, rfl⟩
  have hexec : false = true := congrArg MapEntry.e (Except.ok.inj h)
  cases hexec

end Run
end Subcontexts.Maps
