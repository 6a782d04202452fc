import Subcontexts.Scon.Faults
import Subcontexts.Scon.Store

/-! The counters of the table that the library's runs keep are the 32-bit ones of `_scbtable.c`,
up to the allocation at which the capacity wraps. -/

namespace Subcontexts.ScbTable

/-- The table after `n` allocations; `fresh` is what the memory holds that each of them adds. -/
def after (contents : Nat → Scb) (fresh : Nat → Nat → Scb) : Nat → Option Table
  | 0 => some (init contents)
  | n + 1 => (after contents fresh n).bind fun t => (allocateScb t (fresh n)).map Prod.snd

theorem capacity_grow {t : Table} {fresh : Nat → Scb} : (t.grow fresh).capacity =
    if t.capacity / 2 ≤ t.length then t.capacity * 2 % 2 ^ 32 else t.capacity := by
  by_cases hge : t.capacity / 2 ≤ t.length
  · rw [if_pos hge, Table.grow_of_le hge]
  · rw [if_neg hge, Table.grow_of_lt (Nat.not_le.mp hge)]

theorem Inv.capacity_grow {t : Table} {σ : Contents} {n k : Nat} (I : Inv t σ n k)
    (hn : n + 1 < lastGrowth) (fresh : Nat → Scb) : (t.bump.grow fresh).capacity =
      if t.capacity / 2 ≤ n + 1 then t.capacity * 2 else t.capacity := by
  unfold lastGrowth at hn
  have hlen : t.bump.length = n + 1 := by
    change (t.length + 1) % 2 ^ 32 = n + 1
    rw [I.length]
    omega
  rw [ScbTable.capacity_grow, hlen]
  change (if t.capacity / 2 ≤ n + 1 then t.capacity * 2 % 2 ^ 32 else t.capacity) = _
  split
  · have hk : k < 28 := by
      by_contra hk
      obtain rfl : k = 28 := Nat.le_antisymm I.doublings (Nat.not_lt.mp hk)
      have := I.capacity
      omega
    have hpow : 2 ^ k ≤ 2 ^ 27 := Nat.pow_le_pow_right (by decide) (Nat.le_of_lt_succ hk)
    rw [I.capacity]
    omega
  · rfl

end Subcontexts.ScbTable

namespace Subcontexts.Scon
open ScbTable (Table Contents allocateScb lastGrowth)

/-- The two counters in `_scbtable.c`. -/
structure Counts (s : State) (t : Table) : Prop where
  length : t.length = s.table.length
  capacity : t.capacity = s.capacity

section Steps
variable {s s' : State} {t : Table}

theorem step_counters {a : Action} (ha : ∀ moved, a ≠ .create moved) (hs : step s a = some s') :
    s'.table.length = s.table.length ∧ s'.capacity = s.capacity := by
  cases a with
  | create moved => exact absurd rfl (ha moved)
  | opened libhandle before after =>
    obtain ⟨h, stack, -, rfl⟩ := step_opened hs
    exact ⟨List.length_set, rfl⟩
  | call h =>
    obtain ⟨-, rfl⟩ := step_call hs
    exact ⟨rfl, rfl⟩
  | ret =>
    obtain ⟨h, es, stack, -, -, rfl⟩ := step_ret hs
    exact ⟨rfl, rfl⟩
  | close h =>
    obtain ⟨es, -, rfl⟩ := step_close hs
    exact ⟨List.length_modify .., rfl⟩
  | fault siErrno addr =>
    obtain ⟨e, -, -, rfl⟩ := step_fault hs
    exact ⟨rfl, rfl⟩
  | remap start len p =>
    obtain ⟨-, rfl⟩ := step_remap hs
    exact ⟨rfl, rfl⟩

theorem Counts.create (C : Counts s t) {σ : Contents} {k : Nat}
    (I : ScbTable.Inv t σ s.table.length k) {moved : Bool} (hs : step s (.create moved) = some s')
    (hn : s.table.length + 1 < lastGrowth) (fresh : Nat → ScbTable.Scb) :
    ∃ u j, allocateScb t fresh = some (s.table.length, u) ∧ Counts s' u ∧
      ScbTable.Inv u (σ.put s.table.length .zeroed) s'.table.length j := by
  obtain rfl := Option.some.inj hs
  obtain ⟨u, j, hu, -, J⟩ := I.allocate hn fresh
  have hcap : u.capacity = (t.bump.grow fresh).capacity := by
    obtain ⟨block, -, hblock⟩ := Option.map_eq_some_iff.mp hu
    exact (congrArg (fun p => p.2.capacity) hblock).symm
  have hlen : (s.table ++ [⟨0, .notSet⟩] : List Scb).length = s.table.length + 1 :=
    List.length_append
  refine ⟨u, j, hu, ⟨J.length.trans hlen.symm, ?_⟩, hlen ▸ J⟩
  rw [hcap, I.capacity_grow hn, C.capacity]

end Steps

def Follows (contents : Nat → ScbTable.Scb) (fresh : Nat → Nat → ScbTable.Scb) (s : State) : Prop :=
  ∃ t σ k, ScbTable.after contents fresh s.table.length = some t ∧ Counts s t ∧
    ScbTable.Inv t σ s.table.length k

theorem Follows.step {contents : Nat → ScbTable.Scb} {fresh : Nat → Nat → ScbTable.Scb}
    {s s' : State} {a : Action} (ih : s.table.length < lastGrowth → Follows contents fresh s)
    (hs : Scon.step s a = some s') (hn : s'.table.length < lastGrowth) :
    Follows contents fresh s' := by
  by_cases ha : ∃ moved, a = .create moved
  · obtain ⟨moved, rfl⟩ := ha
    have hlen : s'.table.length = s.table.length + 1 := by
      obtain rfl := Option.some.inj hs
      exact List.length_append
    obtain ⟨t, σ, k, ht, C, I⟩ := ih (by omega)
    obtain ⟨u, j, hu, D, J⟩ := C.create I hs (by omega) (fresh s.table.length)
    refine ⟨u, _, j, ?_, D, J⟩
    rw [hlen, ScbTable.after, ht, Option.bind_some, hu]
    rfl
  · obtain ⟨hlen, hcap⟩ := step_counters (fun moved h => ha ⟨moved, h⟩) hs
    rw [hlen] at hn
    obtain ⟨t, σ, k, ht, C, I⟩ := ih hn
    unfold Follows
    rw [hlen]
    exact ⟨t, σ, k, ht, ⟨C.length.trans hlen.symm, C.capacity.trans hcap.symm⟩, I⟩

/-- In a run of the library with fewer than `lastGrowth` creations, the counters are those of the
table in C after as many allocations. -/
theorem counts_of_reachable {s : State} (hs : Reachable s) (hn : s.table.length < lastGrowth)
    (contents : Nat → ScbTable.Scb) (fresh : Nat → Nat → ScbTable.Scb) :
    ∃ t, ScbTable.after contents fresh s.table.length = some t ∧ Counts s t := by
  obtain ⟨t, -, -, ht, C, -⟩ : Follows contents fresh s := by
    refine Trans.Reach.inv (I := fun s => s.table.length < lastGrowth → Follows contents fresh s)
      ?_ (fun s a s' => Follows.step) hs hn
    rintro s ⟨ht, hc, -⟩ -
    have hl : s.table.length = 0 := by rw [ht]; rfl
    unfold Follows
    rw [hl]
    exact ⟨_, _, 0, rfl, ⟨hl.symm, hc.symm⟩, .init contents⟩
  exact ⟨t, ht, C⟩

end Subcontexts.Scon
