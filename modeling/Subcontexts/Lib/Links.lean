import Mathlib.Data.List.Nodup
import Mathlib.Logic.Function.Basic

/-! Singly linked lists given by a head pointer and a `next` field, over any type of nodes.
A slot is a pointer word of such a list: `none` stands for the head pointer and `some a` for the
`next` field of `a`. Every edit of a list through a slot is a case of `Linked.Holds.set`. -/

/-- Following `next` from `p` visits `l` and arrives at `q`. -/
def Seg {α : Type*} (next : α → Option α) : Option α → List α → Option α → Prop
  | p, [], q => p = q
  | p, a :: l, q => p = some a ∧ Seg next (next a) l q

namespace Seg
variable {α : Type*} {next next' : α → Option α} {p q : Option α} {l l' : List α}

@[simp] theorem nil_iff : Seg next p [] q ↔ p = q := Iff.rfl

@[simp] theorem cons_iff {a : α} : Seg next p (a :: l) q ↔ p = some a ∧ Seg next (next a) l q :=
  Iff.rfl

theorem append_iff : Seg next p (l ++ l') q ↔ ∃ r, Seg next p l r ∧ Seg next r l' q := by
  induction l generalizing p with
  | nil => simp
  | cons a l ih => simp [ih, and_assoc]

theorem congr (h : Seg next p l q) (hn : ∀ a ∈ l, next' a = next a) : Seg next' p l q := by
  induction l generalizing p with
  | nil => exact h
  | cons a l ih =>
    refine ⟨h.1, ?_⟩
    rw [hn a (List.mem_cons_self ..)]
    exact ih h.2 fun b hb => hn b (List.mem_cons_of_mem _ hb)

theorem unique (h : Seg next p l none) (h' : Seg next p l' none) : l = l' := by
  induction l generalizing p l' with
  | nil =>
    cases l' with
    | nil => rfl
    | cons b l' => simp_all
  | cons a l ih =>
    cases l' with
    | nil => simp_all
    | cons b l' =>
      obtain ⟨rfl, ht⟩ := h
      obtain ⟨hb, ht'⟩ := h'
      obtain rfl := Option.some.inj hb
      rw [ih ht ht']

theorem nodup (h : Seg next p l none) : l.Nodup := by
  induction l generalizing p with
  | nil => exact List.nodup_nil
  | cons a l ih =>
    refine List.nodup_cons.mpr ⟨fun ha => ?_, ih h.2⟩
    -- a second visit of `a` would make `l` its own proper suffix
    obtain ⟨u, v, rfl⟩ := List.append_of_mem ha
    obtain ⟨r, _, hv⟩ := append_iff.mp h.2
    have hlen := congrArg List.length (unique h.2 hv.2)
    simp only [List.length_append, List.length_cons] at hlen
    omega

end Seg

structure Linked (α : Type*) where
  head : Option α
  next : α → Option α

namespace Linked
variable {α : Type*} {L : Linked α}

def get (L : Linked α) : Option α → Option α
  | none => L.head
  | some a => L.next a

/-- Walking the list from its head visits exactly `l`. -/
def Holds (L : Linked α) (l : List α) : Prop := Seg L.next L.head l none

theorem Holds.nodup {l : List α} (h : L.Holds l) : l.Nodup := Seg.nodup h

theorem Holds.unique {l l' : List α} (h : L.Holds l) (h' : L.Holds l') : l = l' := Seg.unique h h'

theorem Holds.congr {L' : Linked α} {l : List α} (h : L.Holds l) (hh : L'.head = L.head)
    (hn : ∀ a ∈ l, L'.next a = L.next a) : L'.Holds l := by
  unfold Holds
  rw [hh]
  exact Seg.congr h hn

theorem Holds.head?_eq {l : List α} (h : L.Holds l) : l.head? = L.head := by
  cases l with
  | nil => exact Eq.symm h
  | cons a l => exact h.1.symm

theorem Holds.suffix {pre l : List α} (h : L.Holds (pre ++ l)) :
    Seg L.next (L.get pre.getLast?) l none := by
  obtain ⟨r, hr, hl⟩ := Seg.append_iff.mp h
  have hget : L.get pre.getLast? = r := by
    rcases List.eq_nil_or_concat pre with rfl | ⟨init, a, rfl⟩
    · exact hr
    · rw [List.concat_eq_append, Seg.append_iff] at hr
      obtain ⟨s, _, hs⟩ := hr
      simpa [get] using hs.2
  exact hget ▸ hl

theorem Holds.get_eq {pre post : List α} {a : α} (h : L.Holds (pre ++ a :: post)) :
    L.get pre.getLast? = some a := h.suffix.1

theorem Holds.get_end {l : List α} (h : L.Holds l) : L.get l.getLast? = none := by
  have hl : L.Holds (l ++ []) := by rwa [List.append_nil]
  exact hl.suffix

theorem Holds.next_eq {pre post : List α} {a : α} (h : L.Holds (pre ++ a :: post)) :
    Seg L.next (L.next a) post none := h.suffix.2

theorem Holds.next_mem {l : List α} {a b : α} (h : L.Holds l) (ha : a ∈ l)
    (hb : L.next a = some b) : b ∈ l := by
  obtain ⟨pre, post, rfl⟩ := List.append_of_mem ha
  have hpost := h.next_eq
  rw [hb] at hpost
  cases post with
  | nil => cases hpost
  | cons c post =>
    obtain rfl := Option.some.inj hpost.1
    exact List.mem_append_right _ (List.mem_cons_of_mem _ (List.mem_cons_self ..))

theorem Holds.eq_cons_of_get {pre post : List α} {a : α} (h : L.Holds (pre ++ post))
    (hget : L.get pre.getLast? = some a) : ∃ rest, post = a :: rest := by
  have hs := h.suffix
  rw [hget] at hs
  cases post with
  | nil => cases hs
  | cons b rest =>
    obtain rfl := Option.some.inj hs.1
    exact ⟨rest, rfl⟩

theorem Holds.eq_nil_of_get {pre post : List α} (h : L.Holds (pre ++ post))
    (hget : L.get pre.getLast? = none) : post = [] := by
  have hs := h.suffix
  rw [hget] at hs
  cases post with
  | nil => rfl
  | cons b rest => cases hs.1

theorem Holds.split_unique {pre pre' post post' : List α} {a : α} (h : L.Holds (pre ++ a :: post))
    (heq : pre ++ a :: post = pre' ++ a :: post') : pre = pre' ∧ post = post' := by
  have hnd := h.nodup
  clear h
  induction pre generalizing pre' with
  | nil =>
    cases pre' with
    | nil => exact ⟨rfl, (List.cons.inj heq).2⟩
    | cons b pre' =>
      obtain ⟨rfl, rfl⟩ := List.cons.inj heq
      rw [List.nil_append, List.nodup_cons] at hnd
      exact absurd (List.mem_append_right _ (List.mem_cons_self ..)) hnd.1
  | cons c pre ih =>
    cases pre' with
    | nil =>
      obtain ⟨rfl, -⟩ := List.cons.inj heq
      rw [List.cons_append, List.nodup_cons] at hnd
      exact absurd (List.mem_append_right _ (List.mem_cons_self ..)) hnd.1
    | cons b pre' =>
      obtain ⟨rfl, htail⟩ := List.cons.inj heq
      rw [List.cons_append, List.nodup_cons] at hnd
      obtain ⟨rfl, rfl⟩ := ih htail hnd.2
      exact ⟨rfl, rfl⟩

theorem Holds.insertAfter {L' : Linked α} {pre post : List α} {c n : α}
    (h : L.Holds (pre ++ c :: post)) (hhead : L'.head = L.head) (hc : L'.next c = some n)
    (hnew : L'.next n = L.next c) (hother : ∀ a ∈ pre ++ post, L'.next a = L.next a) :
    L'.Holds (pre ++ c :: n :: post) := by
  obtain ⟨r, hpre, hr, hpost⟩ := Seg.append_iff.mp h
  unfold Holds
  rw [hhead]
  refine Seg.append_iff.mpr ⟨r, ?_, hr, hc, ?_⟩
  · exact hpre.congr fun a ha => hother a (List.mem_append_left _ ha)
  · rw [hnew]
    exact hpost.congr fun a ha => hother a (List.mem_append_right _ ha)

section Edit
variable [DecidableEq α]

def set (L : Linked α) (slot v : Option α) : Linked α :=
  match slot with
  | none => { L with head := v }
  | some a => { L with next := Function.update L.next a v }

theorem get_set_of_ne {slot slot' v : Option α} (h : slot' ≠ slot) :
    (L.set slot v).get slot' = L.get slot' := by
  cases slot with
  | none =>
    cases slot' with
    | none => exact absurd rfl h
    | some b => rfl
  | some a =>
    cases slot' with
    | none => rfl
    | some b => exact Function.update_of_ne (fun hb => h (congrArg some hb)) _ _

theorem Holds.set {pre rest new : List α} {q : Option α} (h : L.Holds (pre ++ rest))
    (hq : Seg L.next q new none) (hn : ∀ a ∈ new, pre.getLast? ≠ some a) :
    (L.set pre.getLast? q).Holds (pre ++ new) := by
  rcases List.eq_nil_or_concat pre with rfl | ⟨init, a, rfl⟩
  · exact hq
  · simp only [List.concat_eq_append, List.getLast?_append, List.getLast?_singleton,
      Option.some_or, ne_eq, Option.some.injEq] at hn ⊢
    rw [List.concat_eq_append] at h
    have hnd : (init ++ [a]).Nodup := (List.nodup_append.mp h.nodup).1
    have ha : ∀ b ∈ init, b ≠ a := fun b hb hba => by
      subst hba
      exact (List.nodup_append.mp hnd).2.2 b hb b (by simp) rfl
    rw [List.append_assoc] at h
    obtain ⟨r, hr, hra⟩ := Seg.append_iff.mp h
    rw [List.append_assoc]
    refine Seg.append_iff.mpr ⟨r, hr.congr fun b hb => ?_, hra.1, ?_⟩
    · exact Function.update_of_ne (ha b hb) _ _
    · simp only [Linked.set, Function.update_self]
      exact hq.congr fun b hb => Function.update_of_ne (fun hba => hn b hb hba.symm) _ _

theorem Holds.unlink {pre post : List α} {a : α} (h : L.Holds (pre ++ a :: post)) :
    (L.set pre.getLast? (L.next a)).Holds (pre ++ post) := by
  refine h.set h.next_eq fun b hb hlast => ?_
  have hmem : b ∈ pre := List.mem_of_getLast? hlast
  exact (List.nodup_append.mp h.nodup).2.2 b hmem b (List.mem_cons_of_mem _ hb) rfl

theorem Holds.insert {pre post : List α} {a : α} (h : L.Holds (pre ++ post))
    (ha : a ∉ pre ++ post) (hnext : L.next a = L.get pre.getLast?) :
    (L.set pre.getLast? (some a)).Holds (pre ++ a :: post) := by
  refine h.set ⟨rfl, hnext ▸ h.suffix⟩ fun b hb hlast => ?_
  have hmem : b ∈ pre := List.mem_of_getLast? hlast
  rcases List.mem_cons.mp hb with rfl | hb
  · exact ha (List.mem_append_left _ hmem)
  · exact (List.nodup_append.mp h.nodup).2.2 b hmem b hb rfl

end Edit
end Linked
