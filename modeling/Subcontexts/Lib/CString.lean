import Subcontexts.Lib.Block

/-! Strings in blocks of memory, ended by a zero character, over any type of characters. A
function that would read or write outside its block gives `none`. -/

structure CString (α : Type*) [Zero α] where
  chars : List α
  noNul : (0 : α) ∉ chars

namespace Block
variable {α : Type*} [Zero α] {b c : Block α} {s t : List α}

structure IsString (b : Block α) (s : List α) : Prop where
  fits : s.length < b.room
  chars : ∀ k (hk : k < s.length), b.entry k = s[k]
  noNul : (0 : α) ∉ s
  nul : b.entry s.length = 0

section Read
variable [DecidableEq α]

def scan (b : Block α) : Nat → Nat → Option (List α)
  | _, 0 => none
  | i, n + 1 => if b.entry i = 0 then some [] else (b.scan (i + 1) n).map (b.entry i :: ·)

def cstring (b : Block α) : Option (List α) := b.scan 0 b.room

def strlen (b : Block α) : Option Nat := b.cstring.map List.length

def strcat (b : Block α) (src : CString α) : Option (Block α) :=
  b.strlen.bind fun n => b.write? n (src.chars ++ [0])

theorem scan_eq_some_iff {i n : Nat} :
    b.scan i n = some s ↔ s.length < n ∧ (∀ k (hk : k < s.length), b.entry (i + k) = s[k]) ∧
      (0 : α) ∉ s ∧ b.entry (i + s.length) = 0 := by
  induction n generalizing i s with
  | zero => simp [scan]
  | succ n ih =>
    rw [scan]
    by_cases h0 : b.entry i = 0
    · rw [if_pos h0]
      constructor
      · intro h
        obtain rfl := Option.some.inj h
        exact ⟨Nat.succ_pos n, fun k hk => absurd hk (Nat.not_lt_zero k), List.not_mem_nil, h0⟩
      · rintro ⟨-, hchars, hno, -⟩
        cases s with
        | nil => rfl
        | cons x s =>
          have hx : b.entry i = x := hchars 0 (Nat.succ_pos _)
          exact absurd (hx ▸ h0 ▸ List.mem_cons_self ..) hno
    · rw [if_neg h0, Option.map_eq_some_iff]
      constructor
      · rintro ⟨t, ht, rfl⟩
        obtain ⟨hlen, hchars, hno, hnul⟩ := ih.mp ht
        refine ⟨Nat.succ_lt_succ hlen, fun k hk => ?_, ?_, ?_⟩
        · cases k with
          | zero => rfl
          | succ k =>
            rw [← Nat.add_assoc, Nat.add_right_comm]
            exact hchars k (Nat.lt_of_succ_lt_succ hk)
        · exact fun hmem => (List.mem_cons.mp hmem).elim (Ne.symm h0) hno
        · rw [List.length_cons, ← Nat.add_assoc, Nat.add_right_comm]
          exact hnul
      · rintro ⟨hlen, hchars, hno, hnul⟩
        cases s with
        | nil => exact absurd hnul h0
        | cons x s =>
          have hx : b.entry i = x := hchars 0 (Nat.succ_pos _)
          refine ⟨s, ih.mpr ⟨Nat.lt_of_succ_lt_succ hlen, fun k hk => ?_, ?_, ?_⟩, by rw [hx]⟩
          · rw [Nat.add_right_comm, Nat.add_assoc]
            exact hchars (k + 1) (Nat.succ_lt_succ hk)
          · exact fun hmem => hno (List.mem_cons_of_mem _ hmem)
          · rw [Nat.add_right_comm, Nat.add_assoc]
            exact hnul

theorem cstring_eq_some_iff : b.cstring = some s ↔ b.IsString s := by
  unfold cstring
  rw [scan_eq_some_iff]
  simp only [Nat.zero_add]
  exact ⟨fun ⟨h₁, h₂, h₃, h₄⟩ => ⟨h₁, h₂, h₃, h₄⟩, fun ⟨h₁, h₂, h₃, h₄⟩ => ⟨h₁, h₂, h₃, h₄⟩⟩

theorem IsString.strlen (h : b.IsString s) : b.strlen = some s.length := by
  rw [Block.strlen, cstring_eq_some_iff.mpr h]
  rfl

end Read

theorem IsString.append {n : Nat} (hn : n = s.length) (hs : (0 : α) ∉ s)
    (hchars : ∀ k (hk : k < s.length), b.entry k = s[k]) (src : CString α)
    (hfit : s.length + src.chars.length < b.room) :
    ∃ c, b.write? n (src.chars ++ [0]) = some c ∧ c.room = b.room ∧
      c.IsString (s ++ src.chars) := by
  subst n
  obtain ⟨c, hc, hroom, hin, hout⟩ := write?_of_le (b := b) (i := s.length)
    (src.chars ++ [0]) (by simp only [List.length_append, List.length_singleton]; omega)
  refine ⟨c, hc, hroom, ?_, fun k hk => ?_, ?_, ?_⟩
  · rw [hroom, List.length_append]
    exact hfit
  · by_cases hlt : k < s.length
    · rw [hout k (.inl hlt), hchars k hlt, List.getElem_append_left hlt]
    · rw [List.length_append] at hk
      have h := hin (k - s.length) (by simp only [List.length_append]; omega)
      rw [Nat.add_sub_of_le (Nat.not_lt.mp hlt)] at h
      rw [h, List.getElem_append_right (Nat.not_lt.mp hlt), List.getElem_append_left]
  · rw [List.mem_append]
    exact not_or.mpr ⟨hs, src.noNul⟩
  · rw [List.length_append, hin src.chars.length (by simp)]
    simp

theorem isString_write_iff {s : CString α} (hc : b.write? 0 s.chars = some c)
    (hfit : s.chars.length < b.room) : c.IsString s.chars ↔ b.entry s.chars.length = 0 := by
  obtain ⟨d, hd, hroom, hin, hout⟩ := write?_of_le (b := b) (i := 0) s.chars (by omega)
  obtain rfl := Option.some.inj (hc.symm.trans hd)
  have hnul := hout s.chars.length (.inr (by omega))
  constructor
  · intro h
    exact hnul.symm.trans h.nul
  · intro h
    refine ⟨hroom ▸ hfit, fun k hk => ?_, s.noNul, hnul.trans h⟩
    have := hin k hk
    rwa [Nat.zero_add] at this

theorem IsString.strcat [DecidableEq α] (h : b.IsString s) (src : CString α)
    (hfit : s.length + src.chars.length < b.room) :
    ∃ c, b.strcat src = some c ∧ c.room = b.room ∧ c.IsString (s ++ src.chars) := by
  obtain ⟨c, hc, hroom, hstr⟩ := IsString.append rfl h.noNul h.chars src hfit
  refine ⟨c, ?_, hroom, hstr⟩
  rw [Block.strcat, h.strlen]
  exact hc

end Block
