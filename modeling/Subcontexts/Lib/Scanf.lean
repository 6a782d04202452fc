import Mathlib.Algebra.Group.Int.Defs
import Mathlib.Algebra.Group.Nat.Defs
import Mathlib.Data.List.Basic
import Mathlib.Tactic.Common

/-! Formatted input from a list of characters: the directives of `scanf` run in their order until
one of them fails, and the numbers that padded digit strings stand for. -/

namespace Scanf

def isSpace (c : Char) : Bool := c = ' ' || (9 ≤ c.toNat && c.toNat ≤ 13)

section Digits

def digitValue (c : Char) : Option Nat :=
  if 48 ≤ c.toNat ∧ c.toNat ≤ 57 then some (c.toNat - 48)
  else if 65 ≤ c.toNat ∧ c.toNat ≤ 70 then some (c.toNat - 55)
  else if 97 ≤ c.toNat ∧ c.toNat ≤ 102 then some (c.toNat - 87)
  else none

def isDigit (base : Nat) (c : Char) : Bool :=
  match digitValue c with
  | some d => d < base
  | none => false

def value (base : Nat) (ds : List Char) : Nat :=
  ds.foldl (fun n c => base * n + (digitValue c).getD 0) 0

/-- `n` in `base`, with zeros in front up to the width: `%0*x` and the like. -/
def padded (width base n : Nat) : List Char := (Nat.toDigits base n).leftpad width '0'

variable {base n width : Nat} {c : Char}

theorem digitValue_digitChar (h : n < 16) : digitValue n.digitChar = some n := by
  have hall : ∀ n < 16, digitValue n.digitChar = some n := by decide
  exact hall n h

theorem isDigit_digitChar (hbase : base ≤ 16) (h : n < base) : isDigit base n.digitChar = true := by
  unfold isDigit
  rw [digitValue_digitChar (Nat.lt_of_lt_of_le h hbase)]
  exact decide_eq_true h

theorem isDigit_toDigits (hone : 1 < base) (hbase : base ≤ 16) (hc : c ∈ Nat.toDigits base n) :
    isDigit base c = true := by
  induction n using Nat.strongRecOn with
  | _ n ih =>
    rw [Nat.toDigits_eq_if hone] at hc
    split at hc
    · rename_i hlt
      obtain rfl := List.mem_singleton.mp hc
      exact isDigit_digitChar hbase hlt
    · rename_i hge
      rcases List.mem_append.mp hc with hc | hc
      · exact ih (n / base) (Nat.div_lt_self (by omega) hone) hc
      · obtain rfl := List.mem_singleton.mp hc
        exact isDigit_digitChar hbase (Nat.mod_lt n (by omega))

theorem value_concat (ds : List Char) :
    value base (ds ++ [c]) = base * value base ds + (digitValue c).getD 0 := by
  unfold value
  rw [List.foldl_append]
  rfl

theorem value_toDigits (hone : 1 < base) (hbase : base ≤ 16) :
    value base (Nat.toDigits base n) = n := by
  induction n using Nat.strongRecOn with
  | _ n ih =>
    rw [Nat.toDigits_eq_if hone]
    split
    · rename_i hlt
      show base * 0 + (digitValue n.digitChar).getD 0 = n
      rw [digitValue_digitChar (Nat.lt_of_lt_of_le hlt hbase)]
      exact Nat.zero_add n
    · rename_i hge
      have hmod : n % base < base := Nat.mod_lt n (by omega)
      rw [value_concat, ih (n / base) (Nat.div_lt_self (by omega) hone),
        digitValue_digitChar (Nat.lt_of_lt_of_le hmod hbase)]
      exact Nat.div_add_mod n base

theorem value_zeros (k : Nat) (ds : List Char) :
    value base (List.replicate k '0' ++ ds) = value base ds := by
  induction k with
  | zero => rfl
  | succ k ih => exact ih

theorem value_padded (hone : 1 < base) (hbase : base ≤ 16) :
    value base (padded width base n) = n := by
  rw [padded, List.leftpad, value_zeros, value_toDigits hone hbase]

theorem isDigit_padded (hone : 1 < base) (hbase : base ≤ 16) (hc : c ∈ padded width base n) :
    isDigit base c = true := by
  rcases List.mem_append.mp hc with hc | hc
  · obtain rfl := List.eq_of_mem_replicate hc
    apply decide_eq_true
    show 0 < base
    omega
  · exact isDigit_toDigits hone hbase hc

theorem padded_ne_nil : padded width base n ≠ [] :=
  List.append_ne_nil_of_right_ne_nil _ Nat.toDigits_ne_nil

end Digits

section Span
variable {p : Char → Bool} {w rest : List Char}

theorem takeWhile_stop (h : ∀ c ∈ rest.head?, p c = false) : rest.takeWhile p = [] := by
  cases rest with
  | nil => rfl
  | cons c rest => exact List.takeWhile_cons_of_neg (by simp [h c rfl])

theorem dropWhile_stop (h : ∀ c ∈ rest.head?, p c = false) : rest.dropWhile p = rest := by
  cases rest with
  | nil => rfl
  | cons c rest => exact List.dropWhile_cons_of_neg (by simp [h c rfl])

theorem takeWhile_span (hw : ∀ c ∈ w, p c) (h : ∀ c ∈ rest.head?, p c = false) :
    (w ++ rest).takeWhile p = w := by
  rw [List.takeWhile_append_of_pos hw, takeWhile_stop h, List.append_nil]

theorem dropWhile_span (hw : ∀ c ∈ w, p c) (h : ∀ c ∈ rest.head?, p c = false) :
    (w ++ rest).dropWhile p = rest := by
  rw [List.dropWhile_append_of_pos hw, dropWhile_stop h]

end Span

section Number

/-- The sign in front of a number, `true` for a minus. -/
def takeSign : List Char → Bool × List Char
  | [] => (false, [])
  | c :: cs => if c = '-' then (true, cs) else if c = '+' then (false, cs) else (false, c :: cs)

def dropPrefix (base : Nat) : List Char → List Char
  | c :: x :: cs => if base = 16 ∧ c = '0' ∧ (x = 'x' ∨ x = 'X') then cs else c :: x :: cs
  | cs => cs

/-- A number, and what follows it; `none` where there is no digit. -/
def number (base : Nat) (cs : List Char) : Option (Int × List Char) :=
  let (negative, cs) := takeSign cs
  let cs := dropPrefix base cs
  let ds := cs.takeWhile (isDigit base)
  if ds = [] then none
  else
    let n : Int := value base ds
    some (if negative then -n else n, cs.dropWhile (isDigit base))

/-- What follows a number does not look like more of it. -/
def Ends (base : Nat) (rest : List Char) : Prop :=
  ∀ c ∈ rest.head?, isDigit base c = false ∧ c ≠ 'x' ∧ c ≠ 'X'

variable {base : Nat} {w rest : List Char}

theorem takeSign_digit {c : Char} {cs : List Char} (hc : isDigit base c = true) :
    takeSign (c :: cs) = (false, c :: cs) := by
  have hminus : c ≠ '-' := by
    rintro rfl
    cases hc
  have hplus : c ≠ '+' := by
    rintro rfl
    cases hc
  rw [takeSign, if_neg hminus, if_neg hplus]

theorem dropPrefix_digits (hw : ∀ c ∈ w, isDigit base c = true) (hne : w ≠ [])
    (hrest : Ends base rest) : dropPrefix base (w ++ rest) = w ++ rest := by
  have hx : ∀ x : Char, isDigit base x = true → x ≠ 'x' ∧ x ≠ 'X' := by
    intro x hx
    constructor
    · rintro rfl
      cases hx
    · rintro rfl
      cases hx
  match w, hne with
  | [c], _ =>
    cases rest with
    | nil => rfl
    | cons x rest =>
      obtain ⟨-, hlower, hupper⟩ := hrest x rfl
      exact if_neg fun h => h.2.2.elim hlower hupper
  | c :: x :: w, _ =>
    obtain ⟨hlower, hupper⟩ := hx x (hw x (by simp))
    exact if_neg fun h => h.2.2.elim hlower hupper

theorem number_digits (hw : ∀ c ∈ w, isDigit base c = true) (hne : w ≠ [])
    (hrest : Ends base rest) : number base (w ++ rest) = some ((value base w : Int), rest) := by
  have hsign : takeSign (w ++ rest) = (false, w ++ rest) := by
    cases w with
    | nil => exact absurd rfl hne
    | cons c w => exact takeSign_digit (hw c (List.mem_cons_self ..))
  have hend : ∀ c ∈ rest.head?, isDigit base c = false := fun c hc => (hrest c hc).1
  unfold number
  rw [hsign]
  dsimp only
  rw [dropPrefix_digits hw hne hrest, takeWhile_span hw hend, dropWhile_span hw hend, if_neg hne]
  rfl

end Number

/-- The directives: white space, a character, `%p`, `%x`, `%d`, `%nc` and `%s`. -/
inductive Directive where
  | space
  | lit (c : Char)
  | pointer
  | hex
  | dec
  | chars (n : Nat)
  | word
  deriving DecidableEq, Repr

inductive Value where
  | number (n : Int)
  | text (cs : List Char)
  deriving DecidableEq, Repr

/-- What is stored of a number read by `%p` or `%x`, as `strtoul` reads it. -/
def storeUnsigned (bits : Nat) (n : Int) : Int :=
  if n.natAbs < 2 ^ 64 then n % 2 ^ bits else 2 ^ bits - 1

/-- What is stored of a number read by `%d`, as `strtol` reads it. -/
def storeInt (n : Int) : Int := (max (-2 ^ 63) (min n (2 ^ 63 - 1))).bmod (2 ^ 32)

/-- One directive: the value it assigns, if it assigns one, and the input it leaves. -/
def Directive.run : Directive → List Char → Option (Option Value × List Char)
  | .space, cs => some (none, cs.dropWhile isSpace)
  | .lit _, [] => none
  | .lit c, d :: cs => if d = c then some (none, cs) else none
  | .pointer, cs =>
    (number 16 (cs.dropWhile isSpace)).map fun (n, cs) => (some (.number (storeUnsigned 64 n)), cs)
  | .hex, cs =>
    (number 16 (cs.dropWhile isSpace)).map fun (n, cs) => (some (.number (storeUnsigned 32 n)), cs)
  | .dec, cs =>
    (number 10 (cs.dropWhile isSpace)).map fun (n, cs) => (some (.number (storeInt n)), cs)
  | .chars n, cs => if cs = [] then none else some (some (.text (cs.take n)), cs.drop n)
  | .word, cs =>
    let cs := cs.dropWhile isSpace
    let w := cs.takeWhile (!isSpace ·)
    if w = [] then none else some (some (.text w), cs.dropWhile (!isSpace ·))

/-- The values assigned before the first directive that fails. -/
def scan : List Directive → List Char → List Value
  | [], _ => []
  | d :: ds, cs =>
    match d.run cs with
    | none => []
    | some (v, cs) => v.toList ++ scan ds cs

section Run
variable {w rest : List Char} {n width : Nat}

theorem scan_cons {d : Directive} {ds : List Directive} {cs : List Char} {v : Option Value}
    (h : d.run cs = some (v, rest)) : scan (d :: ds) cs = v.toList ++ scan ds rest := by
  rw [scan, h]

theorem run_space (hw : ∀ c ∈ w, isSpace c) (hrest : ∀ c ∈ rest.head?, isSpace c = false) :
    Directive.space.run (w ++ rest) = some (none, rest) := by
  rw [Directive.run, dropWhile_span hw hrest]

theorem run_lit {c : Char} : (Directive.lit c).run (c :: rest) = some (none, rest) := if_pos rfl

theorem not_isSpace_of_isDigit {base : Nat} {c : Char} (h : isDigit base c = true) :
    isSpace c = false := by
  have hc : 48 ≤ c.toNat := by
    by_contra hlt
    unfold isDigit digitValue at h
    rw [if_neg (by omega), if_neg (by omega), if_neg (by omega)] at h
    cases h
  have hne : c ≠ ' ' := by
    rintro rfl
    exact absurd hc (by decide)
  simp only [isSpace, hne, decide_false, Bool.false_or, Bool.and_eq_false_iff,
    decide_eq_false_iff_not]
  omega

theorem number_padded {base : Nat} (hone : 1 < base) (hbase : base ≤ 16) (hrest : Ends base rest) :
    number base ((padded width base n ++ rest).dropWhile isSpace) = some ((n : Int), rest) := by
  have hdigits : ∀ c ∈ padded width base n, isDigit base c = true :=
    fun c hc => isDigit_padded hone hbase hc
  have hhead : ∀ c ∈ (padded width base n ++ rest).head?, isSpace c = false := by
    intro c hc
    rw [List.head?_append_of_ne_nil _ padded_ne_nil] at hc
    exact not_isSpace_of_isDigit (hdigits c (List.mem_of_mem_head? hc))
  rw [dropWhile_stop hhead, number_digits hdigits padded_ne_nil hrest, value_padded hone hbase]

theorem storeUnsigned_of_lt {bits : Nat} (hbits : bits ≤ 64) (h : n < 2 ^ bits) :
    storeUnsigned bits n = n := by
  have hlt : n < 2 ^ 64 := Nat.lt_of_lt_of_le h (Nat.pow_le_pow_right (by decide) hbits)
  unfold storeUnsigned
  rw [if_pos (by simpa using hlt)]
  exact_mod_cast Nat.mod_eq_of_lt h

theorem storeInt_of_lt (h : n < 2 ^ 31) : storeInt n = n := by
  have hclamp : max (-2 ^ 63) (min (n : Int) (2 ^ 63 - 1)) = n := by omega
  rw [storeInt, hclamp]
  exact Int.bmod_eq_of_le (by omega) (by omega)

theorem run_pointer (h : n < 2 ^ 64) (hrest : Ends 16 rest) :
    Directive.pointer.run (padded width 16 n ++ rest) = some (some (.number n), rest) := by
  rw [Directive.run, number_padded (by decide) (by decide) hrest, Option.map_some]
  dsimp only
  rw [storeUnsigned_of_lt (by decide) h]

theorem run_hex (h : n < 2 ^ 32) (hrest : Ends 16 rest) :
    Directive.hex.run (padded width 16 n ++ rest) = some (some (.number n), rest) := by
  rw [Directive.run, number_padded (by decide) (by decide) hrest, Option.map_some]
  dsimp only
  rw [storeUnsigned_of_lt (by decide) h]

theorem run_dec (h : n < 2 ^ 31) (hrest : Ends 10 rest) :
    Directive.dec.run (padded width 10 n ++ rest) = some (some (.number n), rest) := by
  rw [Directive.run, number_padded (by decide) (by decide) hrest, Option.map_some]
  dsimp only
  rw [storeInt_of_lt h]

theorem run_chars (hw : w ≠ []) :
    (Directive.chars w.length).run (w ++ rest) = some (some (.text w), rest) := by
  rw [Directive.run, if_neg (List.append_ne_nil_of_left_ne_nil hw _), List.take_left,
    List.drop_left]

theorem run_word {blanks : List Char} (hblanks : ∀ c ∈ blanks, isSpace c) (hne : w ≠ [])
    (hw : ∀ c ∈ w, isSpace c = false) (hrest : ∀ c ∈ rest.head?, isSpace c = true) :
    Directive.word.run (blanks ++ (w ++ rest)) = some (some (.text w), rest) := by
  have hhead : ∀ c ∈ (w ++ rest).head?, isSpace c = false := by
    intro c hc
    rw [List.head?_append_of_ne_nil _ hne] at hc
    exact hw c (List.mem_of_mem_head? hc)
  have hword : ∀ c ∈ w, (!isSpace c) = true := fun c hc => by rw [hw c hc]; rfl
  have hend : ∀ c ∈ rest.head?, (!isSpace c) = false := fun c hc => by rw [hrest c hc]; rfl
  simp only [Directive.run]
  rw [dropWhile_span hblanks hhead, takeWhile_span hword hend, dropWhile_span hword hend,
    if_neg hne]

end Run
end Scanf
