import Subcontexts.Lib.Trans
import Mathlib.Algebra.Group.Int.Defs
import Mathlib.Algebra.Group.Nat.Defs

/-! The subcontext library: the table of control blocks (`_scbtable.c`), the calls of `scon.c` and
the page protections they change. -/

namespace Subcontexts.Scon

/-- The fields of a `MapEntry` that the table's code reads. -/
structure MapEntry where
  startAddr : Nat
  endAddr : Nat
  deriving DecidableEq, Repr

def MapEntry.contains (e : MapEntry) (addr : Nat) : Prop := e.startAddr ≤ addr ∧ addr < e.endAddr

instance (e : MapEntry) (addr : Nat) : Decidable (e.contains addr) :=
  inferInstanceAs (Decidable (_ ∧ _))

/-- `int length = curr->end_addr - curr->start_addr`, as `mprotect` receives it. -/
def MapEntry.length (e : MapEntry) : Nat :=
  (((e.endAddr : Int) - e.startAddr).bmod (2 ^ 32) % 2 ^ 64).toNat

def mapEntryEqual (a b : MapEntry) : Bool := a.startAddr == b.startAddr && a.endAddr == b.endAddr

def mapDiff (before : List MapEntry) : List MapEntry → List MapEntry
  | [] => []
  | acurr :: after =>
    if before.any fun bcurr => mapEntryEqual bcurr acurr then mapDiff before after
    else acurr :: mapDiff before after

structure Prot where
  read : Bool
  write : Bool
  exec : Bool
  deriving DecidableEq, Repr

def Prot.none : Prot := ⟨false, false, false⟩

def Prot.rwx : Prot := ⟨true, true, true⟩

def mprotect (start len : Nat) (p : Prot) (prot : Nat → Prot) : Nat → Prot :=
  fun a => if start ≤ a ∧ a < start + len then p else prot a

/-- The loop of `scon_create`, `scon_callf` and `scon_close` over the entries of a map. -/
def mprotectMap : List MapEntry → Prot → (Nat → Prot) → Nat → Prot
  | [], _, prot => prot
  | curr :: es, p, prot => mprotectMap es p (mprotect curr.startAddr curr.length p prot)

inductive MemMap where
  | notSet
  | live (entries : List MapEntry)
  | freed
  deriving DecidableEq, Repr

/-- A control block; `libhandle` is 0 until `dlopen` returns. -/
structure Scb where
  libhandle : Nat
  memmap : MemMap
  deriving DecidableEq, Repr

def Scb.IsLive (c : Scb) : Prop := ∃ es, c.memmap = .live es

inductive Outcome where
  | granted (e : MapEntry)
  | gaveUp
  | undefined
  deriving DecidableEq, Repr

/-- The search of `sigsegv_handler`; a map that is not live is read all the same. -/
def findEntry : List Scb → Nat → Outcome
  | [], _ => .gaveUp
  | scon :: table, addr =>
    match scon.memmap with
    | .live es =>
      match es.find? fun curr => curr.contains addr with
      | some curr => .granted curr
      | none => findEntry table addr
    | _ => .undefined

def sigsegvHandler (siErrno : Int) (addr : Nat) (table : List Scb) : Outcome :=
  if siErrno ≠ 0 then .gaveUp else findEntry table addr

def searched : List Scb → Nat → List Scb
  | [], _ => []
  | scon :: table, addr =>
    match scon.memmap with
    | .live es => if ∃ curr ∈ es, curr.contains addr then [scon] else scon :: searched table addr
    | _ => [scon]

/-- The control blocks the handler examines before it grants access or gives up. -/
def examined (siErrno : Int) (addr : Nat) (table : List Scb) : List Scb :=
  if siErrno ≠ 0 then [] else searched table addr

/-- A call in progress: the handle and the table its `scb` pointer belongs to. -/
inductive Frame where
  | creating (h gen : Nat)
  | calling (h gen : Nat)
  deriving DecidableEq, Repr

/-- `gen` counts the moves of the table by `realloc`; `closed` remembers the handles closed. -/
structure State where
  table : List Scb
  capacity : Nat
  gen : Nat
  prot : Nat → Prot
  stack : List Frame
  closed : List Nat

inductive Action where
  | create (moved : Bool)
  | opened (libhandle : Nat) (before after : List MapEntry)
  | call (h : Nat)
  | ret
  | close (h : Nat)
  | fault (siErrno : Int) (addr : Nat)
  | remap (start len : Nat) (p : Prot)
  deriving DecidableEq, Repr

def entriesAt (table : List Scb) (h : Nat) : Option (List MapEntry) :=
  match table[h]? with
  | some ⟨_, .live es⟩ => some es
  | _ => none

def State.entries (s : State) (h : Nat) : Option (List MapEntry) := entriesAt s.table h

def State.creating (s : State) : List Nat :=
  s.stack.filterMap fun
    | .creating h _ => some h
    | .calling _ _ => none

/-- A range that no open subcontext records: the loader, the program and the kernel may change
its protection at any time. -/
def State.foreign (s : State) (start len : Nat) : Prop :=
  ∀ c ∈ s.table, match c.memmap with
    | .live es => ∀ e ∈ es, e.endAddr ≤ start ∨ start + len ≤ e.startAddr
    | _ => True

instance (s : State) (start len : Nat) : Decidable (s.foreign start len) := by
  unfold State.foreign
  refine @List.decidableBAll _ _ (fun c => ?_) _
  split <;> infer_instance

/-- `none` where the process exits or the C code reads memory that was freed or never set. The
destructors that `dlclose` runs in `scon_close` are left out. -/
def step (s : State) : Action → Option State
  | .create moved =>
    let grow := s.capacity / 2 ≤ s.table.length + 1
    let gen := if grow ∧ moved then s.gen + 1 else s.gen
    some { s with
      table := s.table ++ [⟨0, .notSet⟩]
      capacity := if grow then s.capacity * 2 else s.capacity
      gen := gen
      stack := .creating s.table.length gen :: s.stack }
  | .opened libhandle before after =>
    match s.stack with
    | .creating h gen :: stack =>
      if gen = s.gen ∧ libhandle ≠ 0 then
        some { s with
          table := s.table.set h ⟨libhandle, .live (mapDiff before after)⟩
          prot := mprotectMap (mapDiff before after) .none s.prot
          stack := stack }
      else none
    | _ => none
  | .call h =>
    match s.entries h with
    | some _ => some { s with stack := .calling h s.gen :: s.stack }
    | none => none
  | .ret =>
    match s.stack with
    | .calling h gen :: stack =>
      match s.entries h with
      | some es =>
        if gen = s.gen then some { s with prot := mprotectMap es .none s.prot, stack := stack }
        else none
      | none => none
    | _ => none
  | .close h =>
    match s.entries h with
    | some es => some { s with
        table := s.table.modify h fun c => { c with memmap := .freed }
        prot := mprotectMap es .rwx s.prot
        closed := h :: s.closed }
    | none => none
  | .fault siErrno addr =>
    match sigsegvHandler siErrno addr s.table with
    | .granted e => some { s with prot := mprotect e.startAddr e.length .rwx s.prot }
    | _ => none
  | .remap start len p =>
    if s.foreign start len then some { s with prot := mprotect start len p s.prot } else none

section Entries
variable {table : List Scb} {h : Nat} {es : List MapEntry}

theorem entriesAt_eq_some :
    entriesAt table h = some es ↔ ∃ l, table[h]? = some ⟨l, .live es⟩ := by
  unfold entriesAt
  constructor
  · intro he
    split at he
    · obtain rfl := Option.some.inj he
      exact ⟨_, ‹_›⟩
    · cases he
  · rintro ⟨l, hl⟩
    rw [hl]

theorem entriesAt_append (k : Nat) : entriesAt (table ++ [⟨0, .notSet⟩]) k = entriesAt table k := by
  unfold entriesAt
  rw [List.getElem?_append]
  by_cases hlt : k < table.length
  · rw [if_pos hlt]
  · rw [if_neg hlt, List.getElem?_eq_none (l := table) (by omega)]
    cases k - table.length <;> rfl

theorem entriesAt_set (hlt : h < table.length) (l k : Nat) :
    entriesAt (table.set h ⟨l, .live es⟩) k = if h = k then some es else entriesAt table k := by
  unfold entriesAt
  rw [List.getElem?_set]
  by_cases hk : h = k
  · subst k
    simp only [if_pos, hlt]
  · rw [if_neg hk, if_neg hk]

theorem entriesAt_freed (k : Nat) :
    entriesAt (table.modify h fun c => { c with memmap := .freed }) k =
      if h = k then none else entriesAt table k := by
  unfold entriesAt
  rw [List.getElem?_modify]
  by_cases hk : h = k
  · subst k
    rw [if_pos rfl]
    cases table[h]? <;> simp
  · rw [if_neg hk]
    cases table[k]? <;> simp [hk]

end Entries

def State.init (s : State) : Prop :=
  s.table = [] ∧ s.capacity = 10 ∧ s.gen = 0 ∧ s.stack = [] ∧ s.closed = []

def Reachable : State → Prop := Trans.Reach State.init (Trans.ofFun step)

end Subcontexts.Scon
