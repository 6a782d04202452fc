import Mathlib.Data.List.Basic
import Mathlib.Tactic.Common

/-! Reading a text file through `fgets`: the pieces in which a buffer of limited size delivers the
file, and the lines of the file. A `Char` stands for one `char` of C. -/

namespace Lines

/-- Up to `n` characters of the input, and no further than the first newline. -/
def take : Nat → List Char → List Char × List Char
  | 0, cs => ([], cs)
  | _ + 1, [] => ([], [])
  | n + 1, c :: cs =>
    if c = '\n' then ([c], cs)
    else
      let (piece, rest) := take n cs
      (c :: piece, rest)

/-- `fgets` with a buffer of `size` characters; `none` at the end of the file. -/
def fgets (size : Nat) : List Char → Option (List Char × List Char)
  | [] => none
  | cs => some (take (size - 1) cs)

structure Line where
  chars : List Char
  noNewline : '\n' ∉ chars
  deriving DecidableEq

def Line.text (l : Line) : List Char := l.chars ++ ['\n']

def file (ls : List Line) : List Char := ls.flatMap Line.text

/-- All that `fgets` delivers, call after call; `fuel` bounds their number. -/
def pieces (size : Nat) : Nat → List Char → List (List Char)
  | 0, _ => []
  | fuel + 1, input =>
    match fgets size input with
    | none => []
    | some (piece, rest) => piece :: pieces size fuel rest

section Take
variable {n : Nat} {cs rest : List Char}

theorem take_short (hcs : '\n' ∉ cs) (h : cs.length < n) :
    take n (cs ++ '\n' :: rest) = (cs ++ ['\n'], rest) := by
  induction cs generalizing n with
  | nil =>
    cases n with
    | zero => exact absurd h (Nat.not_lt_zero _)
    | succ n => rfl
  | cons c cs ih =>
    rw [List.mem_cons, not_or] at hcs
    cases n with
    | zero => exact absurd h (Nat.not_lt_zero _)
    | succ n =>
      rw [List.cons_append, take, if_neg (Ne.symm hcs.1), ih hcs.2 (Nat.lt_of_succ_lt_succ h)]
      rfl

theorem take_long (hcs : '\n' ∉ cs) (h : n ≤ cs.length) :
    take n (cs ++ rest) = (cs.take n, cs.drop n ++ rest) := by
  induction cs generalizing n with
  | nil =>
    obtain rfl := Nat.le_zero.mp h
    rfl
  | cons c cs ih =>
    rw [List.mem_cons, not_or] at hcs
    cases n with
    | zero => rfl
    | succ n =>
      rw [List.cons_append, take, if_neg (Ne.symm hcs.1), ih hcs.2 (Nat.le_of_succ_le_succ h)]
      rfl

theorem take_lt (hcs : cs ≠ []) : (take (n + 1) cs).2.length < cs.length := by
  induction n generalizing cs with
  | zero =>
    cases cs with
    | nil => exact absurd rfl hcs
    | cons c cs =>
      rw [take]
      split <;> exact Nat.lt_succ_self _
  | succ n ih =>
    cases cs with
    | nil => exact absurd rfl hcs
    | cons c cs =>
      rw [take]
      split
      · exact Nat.lt_succ_self _
      · cases cs with
        | nil => exact Nat.lt_succ_self _
        | cons d cs => exact Nat.lt_succ_of_lt (ih (List.cons_ne_nil d cs))

theorem fgets_of_ne_nil {size : Nat} (h : cs ≠ []) : fgets size cs = some (take (size - 1) cs) := by
  cases cs with
  | nil => exact absurd rfl h
  | cons c cs => rfl

end Take

section Pieces
variable {size fuel : Nat} {cs : List Char} {ls : List Line}

theorem file_cons (l : Line) : file (l :: ls) = l.chars ++ '\n' :: file ls := by
  show l.chars ++ ['\n'] ++ file ls = _
  rw [List.append_assoc, List.singleton_append]

theorem length_pieces (hsize : 1 < size) (hcs : '\n' ∉ cs)
    (hfuel : (cs ++ '\n' :: file ls).length < fuel) :
    ls.length + 1 ≤ (pieces size fuel (cs ++ '\n' :: file ls)).length ∧
      ((pieces size fuel (cs ++ '\n' :: file ls)).length = ls.length + 1 ↔
        cs.length + 1 < size ∧ ∀ l ∈ ls, l.text.length < size) := by
  induction fuel generalizing cs ls with
  | zero => exact absurd hfuel (Nat.not_lt_zero _)
  | succ fuel ih =>
    have hne : cs ++ '\n' :: file ls ≠ [] := List.append_ne_nil_of_right_ne_nil _ (by simp)
    rw [pieces, fgets_of_ne_nil hne]
    dsimp only
    by_cases hlt : cs.length < size - 1
    · -- the piece is the line
      rw [take_short hcs hlt]
      dsimp only
      cases ls with
      | nil =>
        have hend : pieces size fuel (file []) = [] := by cases fuel <;> rfl
        rw [hend]
        simp
        omega
      | cons l ls =>
        rw [List.length_append, List.length_cons] at hfuel
        rw [file_cons] at hfuel ⊢
        have hfuel' : (l.chars ++ '\n' :: file ls).length < fuel := by omega
        obtain ⟨hle, hiff⟩ := ih l.noNewline hfuel'
        have htext : l.text.length = l.chars.length + 1 := by
          rw [Line.text, List.length_append]
          rfl
        rw [List.length_cons, List.length_cons, Nat.add_right_cancel_iff, hiff, List.forall_mem_cons,
          htext]
        exact ⟨Nat.succ_le_succ hle, fun h => ⟨by omega, h⟩, fun h => h.2⟩
    · -- the line goes on in the next piece
      rw [take_long hcs (Nat.le_of_not_lt hlt)]
      dsimp only
      have hdrop : '\n' ∉ cs.drop (size - 1) := fun h => hcs (List.mem_of_mem_drop h)
      have hfuel' : (cs.drop (size - 1) ++ '\n' :: file ls).length < fuel := by
        rw [List.length_append] at hfuel ⊢
        rw [List.length_drop]
        omega
      obtain ⟨hle, -⟩ := ih hdrop hfuel'
      rw [List.length_cons]
      refine ⟨by omega, fun h => by omega, fun h => by omega⟩

theorem pieces_eq (hfit : ∀ l ∈ ls, l.text.length < size) (hfuel : ls.length < fuel) :
    pieces size fuel (file ls) = ls.map Line.text := by
  induction ls generalizing fuel with
  | nil =>
    cases fuel with
    | zero => exact absurd hfuel (Nat.not_lt_zero _)
    | succ fuel => rfl
  | cons l ls ih =>
    cases fuel with
    | zero => exact absurd hfuel (Nat.not_lt_zero _)
    | succ fuel =>
      rw [List.forall_mem_cons] at hfit
      have hlt : l.chars.length < size - 1 := by
        have hl := hfit.1
        rw [Line.text, List.length_append, List.length_singleton] at hl
        omega
      rw [file_cons, pieces, fgets_of_ne_nil (List.append_ne_nil_of_right_ne_nil _ (by simp)),
        take_short l.noNewline hlt]
      dsimp only
      rw [ih hfit.2 (Nat.lt_of_succ_lt_succ hfuel)]
      rfl

/-- The file comes in one piece for each line exactly if every line fits the buffer. -/
theorem length_pieces_iff (hsize : 1 < size) (hfuel : (file ls).length < fuel) :
    (pieces size fuel (file ls)).length = ls.length ↔ ∀ l ∈ ls, l.text.length < size := by
  cases ls with
  | nil =>
    have hend : pieces size fuel (file []) = [] := by cases fuel <;> rfl
    rw [hend]
    simp
  | cons l ls =>
    rw [file_cons] at hfuel ⊢
    obtain ⟨-, hiff⟩ := length_pieces hsize l.noNewline hfuel
    rw [List.length_cons, hiff, List.forall_mem_cons, Line.text, List.length_append]
    rfl

end Pieces
end Lines
