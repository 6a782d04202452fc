import Subcontexts.Lib.AddressSpace
import Subcontexts.Machine

/-! Regions, and how a process maps one into its address space. -/

namespace Subcontexts.Region

def protNone : Nat := 0
def protRead : Nat := 1
def protWrite : Nat := 2
def protExec : Nat := 4

/-- `(u64) -1`, the `tmpfile_offset` of a region without a place in the file. -/
def noOffset : Nat := 2 ^ 64 - 1

/-- What an `sc_region` says about its range of addresses. -/
structure Extent where
  vaddr : Nat
  len : Nat
  prot : Nat
  tmpfileOffset : Nat
  deriving DecidableEq, Repr

/-- Inaccessible pages, private memory with its bytes, or the backing file from an offset on. -/
inductive Backing where
  | noAccess
  | anon (prot : Nat) (bytes : Nat → Nat)
  | file (prot offset : Nat)

abbrev Space := AddressSpace Backing

def anonymous (prot : Nat) : Backing :=
  if prot = protNone then .noAccess else .anon prot fun _ => 0

/-- `mmap` with a hint: it must find the range free, and the kernel may still put it elsewhere. -/
def mapHint (granted : Bool) (space : Space) (start len : Nat) (b : Backing) : Option Space :=
  if granted ∧ 0 < len ∧ space.Free start len then some (⟨start, len, b⟩ :: space) else none

/-- The map that `sc_join` makes of one region; `none` where it gives up and returns `NULL`. -/
def joinRegion (pg : PageSize) (tmpfileSize : Nat) (active : Bool) (cur : Extent) (granted : Bool)
    (space : Space) : Except Halt (Option Space) :=
  if active ∧ cur.prot ≠ protNone then do
    check (u64 (cur.tmpfileOffset + cur.len) ≤ tmpfileSize)
    check (cur.tmpfileOffset % pg.bytes = 0)
    return mapHint granted space cur.vaddr cur.len (.file cur.prot cur.tmpfileOffset)
  else do
    check (cur.tmpfileOffset = noOffset)
    return mapHint granted space cur.vaddr cur.len (anonymous cur.prot)

def Held (space : Space) (r : Extent) : Prop :=
  ∀ x, r.vaddr ≤ x → x < r.vaddr + r.len → ∃ k, space.cell x = some (.noAccess, k)

def Mapped (space : Space) (r : Extent) : Prop :=
  ∀ x, r.vaddr ≤ x → x < r.vaddr + r.len → (∃ k, space.cell x = some (.noAccess, k)) ∨
    ∃ prot offset k, space.cell x = some (.file prot offset, k) ∧
      offset + k = r.tmpfileOffset + (x - r.vaddr)

/-- What a reserved region promises: no access, and addresses that exist. -/
def Reservable (r : Extent) : Prop := r.prot = protNone ∧ r.vaddr + r.len < 2 ^ 64

def Extends (space space' : Space) : Prop := ∀ x c, space.cell x = some c → space'.cell x = some c

section Space
variable {space space' : Space} {r : Extent}

theorem Extends.refl (space : Space) : Extends space space := fun _ _ h => h

theorem Extends.held (h : Extends space space') (hr : Held space r) : Held space' r := by
  intro x hlo hhi
  obtain ⟨k, hk⟩ := hr x hlo hhi
  exact ⟨k, h x _ hk⟩

theorem Extends.mapped (h : Extends space space') (hr : Mapped space r) : Mapped space' r := by
  intro x hlo hhi
  rcases hr x hlo hhi with ⟨k, hk⟩ | ⟨prot, offset, k, hk, hoff⟩
  · exact .inl ⟨k, h x _ hk⟩
  · exact .inr ⟨prot, offset, k, h x _ hk, hoff⟩

theorem Held.mapped (h : Held space r) : Mapped space r := fun x hlo hhi => .inl (h x hlo hhi)

theorem Held.part {q : Extent} (h : Held space r) (hlo : r.vaddr ≤ q.vaddr)
    (hhi : q.vaddr + q.len ≤ r.vaddr + r.len) : Held space q := fun x hx hx' =>
  h x (Nat.le_trans hlo hx) (Nat.lt_of_lt_of_le hx' hhi)

theorem mapHint_spec {granted : Bool} {start len : Nat} {b : Backing}
    (h : mapHint granted space start len b = some space') :
    space.Free start len ∧ space' = ⟨start, len, b⟩ :: space := by
  obtain ⟨⟨-, -, hfree⟩, heq⟩ := Option.ite_none_right_eq_some.mp h
  exact ⟨hfree, (Option.some.inj heq).symm⟩

theorem mapHint_extends {granted : Bool} {start len : Nat} {b : Backing}
    (h : mapHint granted space start len b = some space') : Extends space space' := by
  obtain ⟨hfree, rfl⟩ := mapHint_spec h
  exact fun x c hc => AddressSpace.Free.cell_cons hfree hc

theorem mapHint_held {granted : Bool} (h : mapHint granted space r.vaddr r.len .noAccess =
    some space') : Held space' r := by
  obtain ⟨-, rfl⟩ := mapHint_spec h
  exact fun x hlo hhi => ⟨_, AddressSpace.cell_cons_of_covers ⟨hlo, hhi⟩⟩

section Join
variable {pg : PageSize} {tmpfileSize : Nat} {active granted : Bool}

theorem joinRegion_extends
    (h : joinRegion pg tmpfileSize active r granted space = .ok (some space')) :
    Extends space space' := by
  unfold joinRegion at h
  split at h
  · simp only [bind_eq_ok, pure, Except.pure, Except.ok.injEq] at h
    obtain ⟨-, -, -, -, hmap⟩ := h
    exact mapHint_extends hmap
  · simp only [bind_eq_ok, pure, Except.pure, Except.ok.injEq] at h
    obtain ⟨-, -, hmap⟩ := h
    exact mapHint_extends hmap

theorem joinRegion_held (hprot : r.prot = protNone)
    (h : joinRegion pg tmpfileSize active r granted space = .ok (some space')) :
    Held space' r := by
  unfold joinRegion at h
  rw [if_neg (fun hc => hc.2 hprot)] at h
  simp only [bind_eq_ok, pure, Except.pure, Except.ok.injEq] at h
  obtain ⟨-, -, hmap⟩ := h
  rw [anonymous, if_pos hprot] at hmap
  exact mapHint_held hmap

theorem joinRegion_mapped
    (h : joinRegion pg tmpfileSize true r granted space = .ok (some space')) :
    Mapped space' r := by
  by_cases hprot : r.prot = protNone
  · exact (joinRegion_held hprot h).mapped
  · unfold joinRegion at h
    rw [if_pos ⟨rfl, hprot⟩] at h
    simp only [bind_eq_ok, pure, Except.pure, Except.ok.injEq] at h
    obtain ⟨-, -, -, -, hmap⟩ := h
    obtain ⟨-, rfl⟩ := mapHint_spec hmap
    intro x hlo hhi
    exact .inr ⟨r.prot, r.tmpfileOffset, x - r.vaddr,
      AddressSpace.cell_cons_of_covers ⟨hlo, hhi⟩, rfl⟩

end Join
end Space
end Subcontexts.Region
