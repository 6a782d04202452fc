import Subcontexts.Proc.Model

/-! What a process in a section or a walk knows about the list, and which steps of others leave
that knowledge intact. -/

namespace Subcontexts.Proc

def Pc.Holds : Pc → Slot → Prop
  | .joinCount _, slot | .joinRead _, slot | .joinPush _, slot | .joinUnlock, slot => slot = none
  | .killCount, slot | .killHead, slot => slot = none
  | .killTest prev _, slot | .killLockCur prev _, slot | .killUnlockLast prev, slot => slot = prev
  | .killUnlockPrev prev cur, slot => slot = prev ∨ slot = some cur
  | .killCompare _ cur, slot | .killRead _ cur, slot | .killWrite _ cur _, slot => slot = some cur
  | .killUnlockCur cur, slot | .killNext cur, slot => slot = some cur
  | .idle, _ | .joinLock _, _ | .killLock, _ | .killFree _, _ => False

def Pc.private : Pc → Option Addr
  | .joinLock a | .joinCount a | .joinRead a | .joinPush a | .killUnlockCur a | .killFree a => some a
  | _ => none

def Pc.node : Pc → Option Addr
  | .killCompare _ cur | .killRead _ cur | .killWrite _ cur _ | .killNext cur => some cur
  | _ => none

def Pc.own : Pc → Option Addr
  | .killRead _ cur | .killWrite _ cur _ => some cur
  | _ => none

def Pc.Joining : Pc → Prop
  | .joinLock _ | .joinCount _ | .joinRead _ | .joinPush _ | .joinUnlock => True
  | _ => False

def Pc.Killing (pc : Pc) : Prop := pc ≠ .idle ∧ ¬ pc.Joining

/-- The process has read `v` from the slot and acts on it. -/
def Relies (s : State) (p : Pid) (slot : Slot) (v : Option Addr) : Prop :=
  match s.pc p with
  | .joinPush myProc => slot = none ∧ v = s.next myProc
  | .killTest prev cur => slot = prev ∧ v = cur
  | .killLockCur prev cur | .killUnlockPrev prev cur | .killRead prev cur =>
    slot = prev ∧ v = some cur
  | .killCompare prev cur => s.pid cur = p ∧ slot = prev ∧ v = some cur
  | .killWrite prev cur next => (slot = prev ∧ v = some cur) ∨ (slot = some cur ∧ v = next)
  | _ => False

def Searches (s : State) (p : Pid) (slot : Slot) : Prop :=
  match s.pc p with
  | .killTest prev _ | .killLockCur prev _ | .killUnlockPrev prev _ => slot = prev
  | .killCompare _ cur => s.pid cur ≠ p ∧ slot = some cur
  | .killNext cur => slot = some cur
  | _ => False

def OnList (s : State) (p : Pid) : Prop :=
  match s.pc p with
  | .idle => p ∈ s.members
  | .joinLock _ | .joinCount _ | .joinRead _ | .joinPush _ => False
  | .killUnlockCur _ | .killFree _ | .killUnlockLast _ => False
  | _ => True

def Counted (s : State) (p : Pid) : Prop :=
  match s.pc p with
  | .idle => p ∈ s.members
  | .joinRead _ | .joinPush _ | .joinUnlock | .killLock | .killCount => True
  | _ => False

def OnSlot (l : List Addr) (slot : Slot) : Prop := ∃ pre post, l = pre ++ post ∧ pre.getLast? = slot

def Ahead (s : State) (l : List Addr) (p : Pid) (slot : Slot) : Prop :=
  ∃ pre post, l = pre ++ post ∧ pre.getLast? = slot ∧ ∃ a ∈ post, s.pid a = p

structure Walk (s : State) (l : List Addr) (p : Pid) : Prop where
  priv : ∀ a, (s.pc p).private = some a → s.used a = true ∧ a ∉ l ∧ s.pid a = p
  reads : ∀ slot v, Relies s p slot v → OnSlot l slot ∧ s.links.get slot = v
  node : ∀ c, (s.pc p).node = some c → c ∈ l
  own : ∀ c, (s.pc p).own = some c → s.pid c = p
  other : ∀ c, s.pc p = .killNext c → s.pid c ≠ p
  ahead : ∀ slot, Searches s p slot → Ahead s l p slot
  found : ∀ prev, s.pc p ≠ .killUnlockLast prev
  joining : (s.pc p).Joining → p ∈ s.members
  killing : (s.pc p).Killing → p ∉ s.members

structure Inv (s : State) (l : List Addr) : Prop where
  chain : s.links.Holds l
  used : ∀ a ∈ l, s.used a = true
  inj : ∀ a ∈ l, ∀ b ∈ l, s.pid a = s.pid b → a = b
  onList : ∀ p, (∃ a ∈ l, s.pid a = p) ↔ OnList s p
  locks : ∀ slot p, s.lock slot = some p ↔ (s.pc p).Holds slot
  walk : ∀ p, Walk s l p
  exclusive : ∀ p q slot v w, Relies s p slot v → Relies s q slot w → p = q
  count : ∃ C : Finset Pid, (∀ p, p ∈ C ↔ Counted s p) ∧ s.procCount = C.card

section Slots
variable {L : Linked Addr} {l : List Addr}

theorem onSlot_none (l : List Addr) : OnSlot l none := ⟨[], l, rfl, rfl⟩

theorem onSlot_some {a : Addr} : OnSlot l (some a) ↔ a ∈ l := by
  constructor
  · rintro ⟨pre, post, rfl, hlast⟩
    exact List.mem_append_left _ (List.mem_of_getLast? hlast)
  · intro ha
    obtain ⟨pre, post, rfl⟩ := List.append_of_mem ha
    exact ⟨pre ++ [a], post, by simp, by simp⟩

theorem OnSlot.split {slot : Slot} {c : Addr} (h : OnSlot l slot) (hl : L.Holds l)
    (hget : L.get slot = some c) :
    ∃ pre post, l = pre ++ c :: post ∧ pre.getLast? = slot := by
  obtain ⟨pre, post, rfl, rfl⟩ := h
  obtain ⟨rest, rfl⟩ := hl.eq_cons_of_get hget
  exact ⟨pre, rest, rfl, rfl⟩

theorem OnSlot.mem {slot : Slot} {c : Addr} (h : OnSlot l slot) (hl : L.Holds l)
    (hget : L.get slot = some c) : c ∈ l := by
  obtain ⟨pre, post, rfl, -⟩ := h.split hl hget
  simp

theorem OnSlot.ne_self {slot : Slot} {c : Addr} (h : OnSlot l slot) (hl : L.Holds l)
    (hget : L.get slot = some c) : slot ≠ some c := by
  obtain ⟨pre, post, rfl, rfl⟩ := h.split hl hget
  intro hlast
  exact (List.nodup_append.mp hl.nodup).2.2 c (List.mem_of_getLast? hlast) c
    (List.mem_cons_self ..) rfl

end Slots

section Ahead
variable {s t : State} {l : List Addr} {p : Pid} {slot : Slot}

theorem Ahead.get_ne_none (h : Ahead s l p slot) (hl : s.links.Holds l) :
    s.links.get slot ≠ none := by
  obtain ⟨pre, post, rfl, rfl, a, ha, -⟩ := h
  intro hget
  rw [hl.eq_nil_of_get hget] at ha
  cases ha

theorem Ahead.next (h : Ahead s l p slot) (hl : s.links.Holds l) {c : Addr}
    (hget : s.links.get slot = some c) (hc : s.pid c ≠ p) : Ahead s l p (some c) := by
  obtain ⟨pre, post, rfl, rfl, a, ha, hpid⟩ := h
  obtain ⟨rest, rfl⟩ := hl.eq_cons_of_get hget
  have hne : a ≠ c := by
    rintro rfl
    exact hc hpid
  exact ⟨pre ++ [c], rest, by simp, by simp, a, List.mem_of_ne_of_mem hne ha, hpid⟩

theorem ahead_none (h : ∃ a ∈ l, s.pid a = p) : Ahead s l p none := ⟨[], l, rfl, rfl, h⟩

theorem Ahead.push (h : Ahead s l p slot) {n : Addr} (hpid : ∀ a ∈ l, t.pid a = s.pid a) :
    Ahead t (n :: l) p slot := by
  obtain ⟨pre, post, rfl, rfl, a, ha, hp⟩ := h
  have hp' : t.pid a = p := by rw [hpid a (List.mem_append_right _ ha), hp]
  cases pre with
  | nil => exact ⟨[], n :: post, rfl, rfl, a, List.mem_cons_of_mem _ ha, hp'⟩
  | cons b pre => exact ⟨n :: b :: pre, post, rfl, List.getLast?_cons_cons, a, ha, hp'⟩

theorem Ahead.remove {pre post : List Addr} {c : Addr} (h : Ahead s (pre ++ c :: post) p slot)
    (hl : s.links.Holds (pre ++ c :: post)) (hslot : slot ≠ some c) (hc : s.pid c ≠ p)
    (hpid : ∀ a, t.pid a = s.pid a) : Ahead t (pre ++ post) p slot := by
  obtain ⟨pre', post', heq, rfl, a, ha, hp⟩ := h
  have hne : a ≠ c := by
    rintro rfl
    exact hc hp
  have hp' : t.pid a = p := by rw [hpid, hp]
  have hmem : c ∈ pre' ++ post' := heq ▸ List.mem_append_right _ (List.mem_cons_self ..)
  rcases List.mem_append.mp hmem with hcp | hcp
  · obtain ⟨u, v, rfl⟩ := List.append_of_mem hcp
    rw [List.append_assoc, List.cons_append] at heq
    obtain ⟨rfl, rfl⟩ := hl.split_unique heq
    have hv : v ≠ [] := by
      rintro rfl
      exact hslot (by simp)
    obtain ⟨v, b, rfl⟩ := List.eq_nil_or_concat v |>.resolve_left hv
    refine ⟨pre ++ (v ++ [b]), post', by simp, ?_, a, ha, hp'⟩
    rw [List.concat_eq_append, ← List.append_assoc, List.getLast?_concat, ← List.cons_append,
      ← List.append_assoc, List.getLast?_concat]
  · obtain ⟨u, v, rfl⟩ := List.append_of_mem hcp
    rw [← List.append_assoc] at heq
    obtain ⟨rfl, rfl⟩ := hl.split_unique heq
    refine ⟨pre', u ++ post, by simp, rfl, a, ?_, hp'⟩
    simp only [List.mem_append, List.mem_cons] at ha ⊢
    tauto

end Ahead
end Subcontexts.Proc
