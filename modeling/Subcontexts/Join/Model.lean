import Subcontexts.Lib.Trans
import Subcontexts.Region.Mapping

/-! One process in `sc_join`, against `sc_mmap` calls and reservations of the members. The joiner
steps from one locked section or one mapped region to the next. The cleanup log, which holds one
step while a reservation is pending and none otherwise, is told by `pending` and its counts. -/

namespace Subcontexts.Join

open Region

/-- Where the joiner is; `i` is an index into the active list, and `rest` counts the regions of the
reserved list from the one it points at to the end. -/
inductive Phase where
  | start
  | mapActive (i rest : Nat)
  | nextActive (i rest : Nat)
  | mapReserved (rest : Nat)
  | nextReserved (rest : Nat)
  | registering
  | registered
  | returned
  | failed
  deriving DecidableEq, Repr

/-- `linking` is the region of an `sc_mmap` that holds the root lock, has taken its range from the
reserved list and waits for the lock of the active tail. `owes` says that the joiner has still to
acknowledge the pending reservation. `space` is the joiner's address space. -/
structure State where
  active : List Extent
  reserved : List Extent
  linking : Option Extent
  tmpfileSize : Nat
  pending : Option Extent
  ackTarg : Nat
  ackCount : Nat
  owes : Bool
  procCount : Nat
  phase : Phase
  space : Space

inductive Action where
  | snapshot (prealloc : Bool)
  | map (granted : Bool)
  | next
  | register
  | finish
  | mmap (length prot : Nat) (truncated : Bool)
  | link
  | post (vaddr pages : Nat)
  | ack
  | ackJoiner (granted : Bool)
  | complete
  | alloc (start len prot : Nat) (bytes : Nat → Nat)

def snapshot (s : State) (prealloc : Bool) : Option State :=
  if s.phase = .start ∧ s.linking = none ∧ 1 < s.active.length ∧ s.reserved ≠ [] then
    if prealloc then some { s with phase := .mapActive 1 s.reserved.length }
    else some { s with phase := .failed }
  else none

def State.mapped (s : State) (result : Except Halt (Option Space)) (phase : Phase) :
    Option State :=
  match result with
  | .ok (some space) => some { s with space := space, phase := phase }
  | .ok none => some { s with phase := .failed }
  | .error _ => none

def map (pg : PageSize) (s : State) (granted : Bool) : Option State :=
  match s.phase with
  | .mapActive i rest =>
    match s.active[i]? with
    | some cur =>
      s.mapped (joinRegion pg s.tmpfileSize true cur granted s.space) (.nextActive i rest)
    | none => none
  | .mapReserved rest =>
    match s.reserved[s.reserved.length - rest]? with
    | some cur =>
      s.mapped (joinRegion pg s.tmpfileSize false cur granted s.space) (.nextReserved rest)
    | none => none
  | _ => none

def next (s : State) : Option State :=
  match s.phase with
  | .nextActive i rest =>
    if i + 1 < s.active.length then some { s with phase := .mapActive (i + 1) rest }
    else some { s with phase := .mapReserved rest }
  | .nextReserved rest =>
    if 1 < rest then some { s with phase := .mapReserved (rest - 1) }
    else some { s with phase := .registering }
  | _ => none

def Phase.HoldsTail (length : Nat) : Phase → Prop
  | .mapActive i _ | .nextActive i _ => i + 1 = length
  | _ => False

instance (length : Nat) : (ph : Phase) → Decidable (ph.HoldsTail length)
  | .mapActive i _ | .nextActive i _ => inferInstanceAs (Decidable (i + 1 = length))
  | .start | .mapReserved _ | .nextReserved _ | .registering | .registered | .returned | .failed =>
    inferInstanceAs (Decidable False)

def Phase.Registered : Phase → Prop
  | .registered | .returned => True
  | _ => False

instance : (ph : Phase) → Decidable ph.Registered
  | .registered | .returned => inferInstanceAs (Decidable True)
  | .start | .mapActive _ _ | .nextActive _ _ | .mapReserved _ | .nextReserved _ | .registering
  | .failed => inferInstanceAs (Decidable False)

/-- `sc_mmap` up to the link of the new region. -/
def mmap (pg : PageSize) (s : State) (length prot : Nat) (truncated : Bool) : Option State :=
  if s.linking = none ∧ s.pending = none ∧ 0 < length ∧ length % pg.bytes = 0 then
    let tmpfileSize := u64 (s.tmpfileSize + length)
    if truncated then
      match s.reserved with
      | [] => none
      | head :: tail =>
        -- an exact fit ends in the `TODO()` for an empty reserved region
        if length < head.len then
          some { s with
            tmpfileSize := tmpfileSize
            reserved :=
              { head with vaddr := u64 (head.vaddr + length), len := head.len - length } :: tail
            linking := some ⟨head.vaddr, length, prot, sub64 tmpfileSize length⟩ }
        else none
    else some { s with tmpfileSize := tmpfileSize }
  else none

def link (s : State) : Option State :=
  match s.linking with
  | some region =>
    if s.phase.HoldsTail s.active.length then none
    else some { s with active := s.active ++ [region], linking := none }
  | none => none

/-- `sc_postNewReservation` by another member, with the range that `mmap` gave it. -/
def post (pg : PageSize) (s : State) (vaddr pages : Nat) : Option State :=
  let len := u64 (pages * pg.bytes)
  if s.linking = none ∧ s.pending = none ∧ 0 < pages ∧ 1 < s.procCount ∧
      vaddr + len < 2 ^ 64 then
    some { s with
      pending := some ⟨vaddr, len, protNone, noOffset⟩
      ackTarg := s.procCount
      ackCount := 1
      owes := decide s.phase.Registered }
  else none

/-- The acknowledgement by the joiner's background thread, which maps the range first. -/
def ackJoiner (s : State) (granted : Bool) : Option State :=
  match s.pending with
  | some r =>
    if s.owes ∧ s.ackCount < s.ackTarg then
      if r.len = 0 then some { s with ackCount := s.ackCount + 1, owes := false }
      else
        match mapHint granted s.space r.vaddr r.len .noAccess with
        | some space => some { s with space := space, ackCount := s.ackCount + 1, owes := false }
        | none => none
    else none
  | none => none

def complete (s : State) : Option State :=
  match s.pending with
  | some r =>
    if s.linking = none ∧ s.ackCount = s.ackTarg ∧ r.len ≠ 0 then
      some { s with reserved := r :: s.reserved, pending := none }
    else none
  | none => none

def step (pg : PageSize) (s : State) : Action → Option State
  | .snapshot prealloc => snapshot s prealloc
  | .map granted => map pg s granted
  | .next => next s
  | .register =>
    if s.phase = .registering ∧ s.linking = none ∧ s.pending = none then
      some { s with phase := .registered, procCount := s.procCount + 1 }
    else none
  | .finish => if s.phase = .registered then some { s with phase := .returned } else none
  | .mmap length prot truncated => mmap pg s length prot truncated
  | .link => link s
  | .post vaddr pages => post pg s vaddr pages
  | .ack =>
    if s.pending ≠ none ∧ s.ackCount + s.owes.toNat < s.ackTarg then
      some { s with ackCount := s.ackCount + 1 }
    else none
  | .ackJoiner granted => ackJoiner s granted
  | .complete => complete s
  | .alloc start len prot bytes =>
    if s.space.Free start len then
      some { s with space := ⟨start, len, .anon prot bytes⟩ :: s.space }
    else none

/-- The joiner has moved the first page to its place and nothing else; the members may be anywhere
between their calls. -/
def State.init (s : State) : Prop :=
  s.phase = .start ∧ s.linking = none ∧ s.owes = false ∧
    (∃ first others, s.active = first :: others ∧ Mapped s.space first) ∧
    (∀ r ∈ s.reserved, Reservable r) ∧ ∀ r, s.pending = some r → Reservable r

def Covered (s : State) : Prop := ∀ r ∈ s.active ++ s.reserved, Mapped s.space r

end Subcontexts.Join
