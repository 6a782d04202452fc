import Subcontexts.Lib.Block
import Mathlib.Algebra.Group.Nat.Defs

/-! The memory behind the table of control blocks: `length` and `capacity` as the 32-bit counters
of `_scbtable.c`, the block that `realloc` moves, and when the table is a store that keeps what
was written through every handle. -/

namespace Subcontexts.ScbTable

structure Scb where
  libhandle : Nat
  memhandle : Int
  memmap : Nat
  startAddr : Nat
  endAddr : Nat
  deriving DecidableEq, Repr

def scbSize : Nat := 40

/-- `bzero(&scb_table[scon], sizeof(scb))`. -/
def Scb.zeroed : Scb := ⟨0, 0, 0, 0, 0⟩

structure Table where
  length : Nat
  capacity : Nat
  scbTable : Block Scb

/-- The entries that fit in `sizeof(scb) * capacity` bytes, a product of type `size_t`. -/
def roomFor (capacity : Nat) : Nat := scbSize * capacity % 2 ^ 64 / scbSize

/-- The library's constructor; `malloc` leaves arbitrary contents. -/
def init (contents : Nat → Scb) : Table := ⟨0, 10, ⟨roomFor 10, contents⟩⟩

/-- `if (length >= capacity / 2) { capacity *= 2; scb_table = realloc(...); }` -/
def Table.grow (t : Table) (fresh : Nat → Scb) : Table :=
  if t.capacity / 2 ≤ t.length then
    let capacity := t.capacity * 2 % 2 ^ 32
    { t with capacity := capacity, scbTable := t.scbTable.realloc (roomFor capacity) fresh }
  else t

def Table.bump (t : Table) : Table := { t with length := (t.length + 1) % 2 ^ 32 }

/-- The new handle and the table; `none` where `bzero` writes outside the block. `fresh` is what
the memory holds that `realloc` adds. -/
def allocateScb (t : Table) (fresh : Nat → Scb) : Option (Nat × Table) :=
  let scon := t.length
  let u := t.bump.grow fresh
  (u.scbTable.set? scon .zeroed).map fun block => (scon, { u with scbTable := block })

/-- The index that `get_scb` returns the address of; `none` where its assertion fails. -/
def getScb (t : Table) (scon : Nat) : Option Nat := if scon < t.length then some scon else none

def Table.read (t : Table) (scon : Nat) : Option Scb := (getScb t scon).bind t.scbTable.get?

def Table.write (t : Table) (scon : Nat) (c : Scb) : Option Table :=
  (getScb t scon).bind fun i =>
    (t.scbTable.set? i c).map fun block => { t with scbTable := block }

inductive Call where
  | allocate (fresh : Nat → Scb)
  | write (scon : Nat) (c : Scb)

def allocations : List Call → Nat
  | [] => 0
  | .allocate _ :: calls => allocations calls + 1
  | .write _ _ :: calls => allocations calls

/-- What the table stands for: the control block last written through each handle returned. -/
abbrev Contents := Nat → Option Scb

def Contents.put (σ : Contents) (scon : Nat) (c : Scb) : Contents :=
  Function.update σ scon (some c)

structure Faithful (t : Table) (σ : Contents) : Prop where
  accepts : ∀ scon, (getScb t scon).isSome ↔ (σ scon).isSome
  reads : ∀ scon c, σ scon = some c → scon < t.scbTable.room ∧ t.read scon = some c

/-- The calls write only through handles that were returned before. -/
def Client : Table → Contents → List Call → Prop
  | _, _, [] => True
  | t, σ, .allocate fresh :: calls =>
    ∀ scon u, allocateScb t fresh = some (scon, u) → Client u (σ.put scon .zeroed) calls
  | t, σ, .write scon c :: calls =>
    (σ scon).isSome ∧ ∀ u, t.write scon c = some u → Client u (σ.put scon c) calls

def Served : Table → Contents → List Call → Prop
  | t, σ, [] => Faithful t σ
  | t, σ, .allocate fresh :: calls =>
    Faithful t σ ∧ ∃ scon u, allocateScb t fresh = some (scon, u) ∧ σ scon = none ∧
      scon < u.scbTable.room ∧ Served u (σ.put scon .zeroed) calls
  | t, σ, .write scon c :: calls =>
    Faithful t σ ∧ ∃ u, t.write scon c = some u ∧ Served u (σ.put scon c) calls

/-- The number of the allocation that doubles a capacity of `10 * 2 ^ 28`, which wraps. -/
def lastGrowth : Nat := 5 * 2 ^ 28

structure Inv (t : Table) (σ : Contents) (n k : Nat) : Prop where
  length : t.length = n
  capacity : t.capacity = 10 * 2 ^ k
  room : t.scbTable.room = 10 * 2 ^ k
  half : n < 5 * 2 ^ k
  doublings : k ≤ 28
  issued : ∀ scon, (σ scon).isSome ↔ scon < n
  holds : ∀ scon c, σ scon = some c → t.scbTable.entry scon = c

theorem roomFor_eq {capacity : Nat} (h : capacity < 2 ^ 32) : roomFor capacity = capacity := by
  unfold roomFor scbSize
  omega

theorem getScb_eq_some {t : Table} {scon : Nat} (h : scon < t.length) :
    getScb t scon = some scon := if_pos h

section Allocate
variable {t : Table} {n : Nat} {fresh : Nat → Scb}

theorem Table.grow_of_le (h : t.capacity / 2 ≤ t.length) :
    t.grow fresh = ⟨t.length, t.capacity * 2 % 2 ^ 32,
      t.scbTable.realloc (roomFor (t.capacity * 2 % 2 ^ 32)) fresh⟩ := if_pos h

theorem Table.grow_of_lt (h : t.length < t.capacity / 2) : t.grow fresh = t :=
  if_neg (Nat.not_le.mpr h)

theorem allocateScb_of_lt (hn : t.length = n) (h : n < (t.bump.grow fresh).scbTable.room) :
    allocateScb t fresh = some (n, { t.bump.grow fresh with
      scbTable := (t.bump.grow fresh).scbTable.put n .zeroed }) := by
  subst n
  simp only [allocateScb, Block.set?_of_lt h, Option.map_some]

theorem allocateScb_of_le (hn : t.length = n) (h : (t.bump.grow fresh).scbTable.room ≤ n) :
    allocateScb t fresh = none := by
  subst n
  simp only [allocateScb, Block.set?_of_le h, Option.map_none]

end Allocate

section Steps
variable {t : Table} {σ : Contents} {n k scon : Nat}

theorem Inv.init (contents : Nat → Scb) : Inv (ScbTable.init contents) (fun _ => none) 0 0 where
  length := rfl
  capacity := rfl
  room := rfl
  half := by decide
  doublings := Nat.zero_le _
  issued scon := by simp
  holds scon c h := by cases h

theorem Inv.lt_room (I : Inv t σ n k) (h : scon < n) : scon < t.scbTable.room := by
  rw [I.room]
  have := I.half
  omega

theorem Inv.lt_of_eq_some (I : Inv t σ n k) {c : Scb} (h : σ scon = some c) : scon < n :=
  (I.issued scon).mp (by rw [h]; rfl)

theorem Inv.lt_lastGrowth (I : Inv t σ n k) : n < lastGrowth :=
  Nat.lt_of_lt_of_le I.half
    (Nat.mul_le_mul_left 5 (Nat.pow_le_pow_right (by decide) I.doublings))

theorem Inv.faithful (I : Inv t σ n k) : Faithful t σ := by
  constructor
  · intro scon
    unfold getScb
    rw [I.issued, I.length]
    split <;> simp_all
  · intro scon c hc
    have hlt := I.lt_of_eq_some hc
    refine ⟨I.lt_room hlt, ?_⟩
    unfold Table.read
    rw [getScb_eq_some (I.length ▸ hlt), Option.bind_some, Block.get?_of_lt (I.lt_room hlt),
      I.holds scon c hc]

theorem Inv.put (I : Inv t σ n k) {u : Table} {m j : Nat} {c : Scb} (hscon : scon < m)
    (hm : ∀ i, i ≠ scon → (i < m ↔ i < n)) (hlen : u.length = m) (hcap : u.capacity = 10 * 2 ^ j)
    (hroom : u.scbTable.room = 10 * 2 ^ j) (hhalf : m < 5 * 2 ^ j) (hj : j ≤ 28)
    (hkeep : ∀ i < n, u.scbTable.entry i = t.scbTable.entry i) :
    Inv { u with scbTable := u.scbTable.put scon c } (σ.put scon c) m j where
  length := hlen
  capacity := hcap
  room := hroom
  half := hhalf
  doublings := hj
  issued i := by
    by_cases hi : i = scon
    · subst i
      simp [Contents.put, hscon]
    · unfold Contents.put
      rw [Function.update_of_ne hi, I.issued, hm i hi]
  holds i d hd := by
    unfold Contents.put at hd
    by_cases hi : i = scon
    · subst i
      rw [Function.update_self] at hd
      exact Block.entry_put_self.trans (Option.some.inj hd)
    · rw [Function.update_of_ne hi] at hd
      rw [Block.entry_put_of_ne hi, hkeep i (I.lt_of_eq_some hd)]
      exact I.holds i d hd

theorem Inv.write (I : Inv t σ n k) (hscon : (σ scon).isSome) (c : Scb) :
    ∃ u, t.write scon c = some u ∧ Inv u (σ.put scon c) n k := by
  have hlt := (I.issued scon).mp hscon
  refine ⟨{ t with scbTable := t.scbTable.put scon c }, ?_, ?_⟩
  · unfold Table.write
    rw [getScb_eq_some (I.length ▸ hlt), Option.bind_some, Block.set?_of_lt (I.lt_room hlt)]
    rfl
  · exact I.put hlt (fun _ _ => Iff.rfl) I.length I.capacity I.room I.half I.doublings
      fun _ _ => rfl

theorem Inv.grow (I : Inv t σ n k) (hn : n + 1 < lastGrowth) (fresh : Nat → Scb) :
    ∃ j, (t.bump.grow fresh).length = n + 1 ∧ (t.bump.grow fresh).capacity = 10 * 2 ^ j ∧
      (t.bump.grow fresh).scbTable.room = 10 * 2 ^ j ∧ n + 1 < 5 * 2 ^ j ∧ j ≤ 28 ∧
      ∀ i < n, (t.bump.grow fresh).scbTable.entry i = t.scbTable.entry i := by
  unfold lastGrowth at hn
  have hlen : t.bump.length = n + 1 := by
    change (t.length + 1) % 2 ^ 32 = n + 1
    rw [I.length]
    omega
  have hcap : t.bump.capacity = 10 * 2 ^ k := I.capacity
  have hhalf := I.half
  by_cases hge : 5 * 2 ^ k ≤ n + 1
  · have hk : k < 28 := by
      by_contra hk
      have := Nat.mul_le_mul_left 5 (Nat.pow_le_pow_right (n := 2) (by decide) (Nat.not_lt.mp hk))
      omega
    have hpow : 2 ^ k * 2 ≤ 2 ^ 28 := Nat.pow_le_pow_right (n := 2) (by decide) hk
    have hdouble : t.bump.capacity * 2 % 2 ^ 32 = 10 * 2 ^ (k + 1) := by
      rw [hcap, Nat.pow_succ]
      omega
    have hroom : roomFor (10 * 2 ^ (k + 1)) = 10 * 2 ^ (k + 1) :=
      roomFor_eq (by rw [Nat.pow_succ]; omega)
    rw [Table.grow_of_le (by rw [hcap, hlen]; omega), hdouble, hroom]
    refine ⟨k + 1, hlen, rfl, rfl, by rw [Nat.pow_succ]; omega, hk, fun i hi => ?_⟩
    exact Block.entry_realloc fresh (I.lt_room hi) (by rw [Nat.pow_succ]; omega)
  · rw [Table.grow_of_lt (by rw [hcap, hlen]; omega)]
    exact ⟨k, hlen, hcap, I.room, by omega, I.doublings, fun _ _ => rfl⟩

theorem Inv.allocate (I : Inv t σ n k) (hn : n + 1 < lastGrowth) (fresh : Nat → Scb) :
    ∃ u j, allocateScb t fresh = some (n, u) ∧ n < u.scbTable.room ∧
      Inv u (σ.put n .zeroed) (n + 1) j := by
  obtain ⟨j, hlen, hcap, hroom, hhalf, hj, hkeep⟩ := I.grow hn fresh
  have hlt : n < (t.bump.grow fresh).scbTable.room := by omega
  refine ⟨_, j, allocateScb_of_lt I.length hlt, hlt, ?_⟩
  exact I.put (Nat.lt_succ_self n) (fun i hi => by omega) hlen hcap hroom hhalf hj hkeep

theorem Inv.overflow (I : Inv t σ n k) (hn : n + 1 = lastGrowth) (fresh : Nat → Scb) :
    allocateScb t fresh = none := by
  unfold lastGrowth at hn
  have hk : k = 28 := by
    refine Nat.le_antisymm I.doublings (Nat.not_lt.mp fun hk => ?_)
    have := Nat.mul_le_mul_left 5 (Nat.pow_le_pow_right (n := 2) (by decide) (Nat.le_of_lt_succ hk))
    have := I.half
    omega
  have hcap := I.capacity
  rw [hk] at hcap
  have hgrow : (t.bump.grow fresh).scbTable.room = 2 ^ 30 := by
    have hle : t.bump.capacity / 2 ≤ t.bump.length := by
      change t.capacity / 2 ≤ (t.length + 1) % 2 ^ 32
      rw [hcap, I.length]
      omega
    rw [Table.grow_of_le hle]
    change roomFor (t.capacity * 2 % 2 ^ 32) = 2 ^ 30
    rw [hcap]
    rfl
  exact allocateScb_of_le I.length (by omega)

end Steps

theorem Inv.served_iff {t : Table} {σ : Contents} {n k : Nat} (I : Inv t σ n k) (calls : List Call)
    (hc : Client t σ calls) : Served t σ calls ↔ n + allocations calls < lastGrowth := by
  induction calls generalizing t σ n k with
  | nil => exact iff_of_true I.faithful I.lt_lastGrowth
  | cons call calls ih =>
    cases call with
    | allocate fresh =>
      by_cases hn : n + 1 < lastGrowth
      · obtain ⟨u, j, hu, hlt, J⟩ := I.allocate hn fresh
        have hfresh : σ n = none := by
          have := I.issued n
          simpa using this
        have hrest := ih J (hc n u hu)
        rw [allocations, ← Nat.add_assoc, Nat.add_right_comm, ← hrest]
        constructor
        · rintro ⟨-, scon, v, hv, -, -, hserved⟩
          obtain ⟨rfl, rfl⟩ := Prod.mk.inj (Option.some.inj (hu.symm.trans hv))
          exact hserved
        · intro hserved
          exact ⟨I.faithful, n, u, hu, hfresh, hlt, hserved⟩
      · have hlast : n + 1 = lastGrowth := Nat.le_antisymm I.lt_lastGrowth (Nat.not_lt.mp hn)
        refine iff_of_false ?_ ?_
        · rintro ⟨-, scon, u, hu, -⟩
          rw [I.overflow hlast] at hu
          cases hu
        · rw [allocations]
          omega
    | write scon c =>
      obtain ⟨u, hu, J⟩ := I.write hc.1 c
      have hrest := ih J (hc.2 u hu)
      rw [allocations, ← hrest]
      constructor
      · rintro ⟨-, v, hv, hserved⟩
        obtain rfl := Option.some.inj (hu.symm.trans hv)
        exact hserved
      · intro hserved
        exact ⟨I.faithful, u, hu, hserved⟩

/-- The table serves a client exactly until the allocation at which its capacity wraps. -/
theorem scb_table_faithful_iff (contents : Nat → Scb) (calls : List Call)
    (hc : Client (init contents) (fun _ => none) calls) :
    Served (init contents) (fun _ => none) calls ↔ allocations calls < lastGrowth := by
  have h := (Inv.init contents).served_iff calls hc
  rwa [Nat.zero_add] at h

def leftover (i : Nat) : Scb := ⟨i, 7, 0xdead, 0, 0⟩

/-- A write between two allocations. -/
theorem scb_table_faithful_iff_written : Served (init leftover) (fun _ => none)
    [.allocate leftover, .write 0 ⟨1, 0, 4096, 0, 0⟩, .allocate leftover] := by
  refine (scb_table_faithful_iff leftover _ ?_).mpr (by decide)
  rintro scon u hu
  have hscon : scon = 0 := (congrArg Prod.fst (Option.some.inj hu)).symm
  subst scon
  exact ⟨rfl, fun _ _ _ _ _ => trivial⟩

theorem client_replicate (n : Nat) (fresh : Nat → Scb) (t : Table) (σ : Contents) :
    Client t σ (List.replicate n (.allocate fresh)) := by
  induction n generalizing t σ with
  | zero => trivial
  | succ n ih => exact fun scon u _ => ih u _

theorem allocations_replicate (n : Nat) (fresh : Nat → Scb) :
    allocations (List.replicate n (.allocate fresh)) = n := by
  induction n with
  | zero => rfl
  | succ n ih => rw [List.replicate_succ, allocations, ih]

theorem not_served_replicate {n : Nat} (hn : lastGrowth ≤ n) (contents : Nat → Scb) :
    ¬ Served (init contents) (fun _ => none) (List.replicate n (.allocate contents)) := by
  rw [(Inv.init contents).served_iff _ (client_replicate n contents _ _), allocations_replicate]
  omega

/-- `lastGrowth` allocations are fewer than a `scon_t` can name; the last of them clears an entry
outside the table. -/
theorem scb_table_faithful_fails :
    ¬ ∀ (contents : Nat → Scb) (calls : List Call), allocations calls ≤ 2 ^ 32 →
      Client (init contents) (fun _ => none) calls →
      Served (init contents) (fun _ => none) calls := by
  intro H
  obtain ⟨n, hn⟩ : ∃ n, n = lastGrowth := ⟨_, rfl⟩
  have hle : n ≤ 2 ^ 32 := by
    rw [hn]
    decide
  refine not_served_replicate (Nat.le_of_eq hn.symm) leftover (H leftover _ ?_ (client_replicate n ..))
  rwa [allocations_replicate]

end Subcontexts.ScbTable
