import Subcontexts.Lib.Trans
import Mathlib.Logic.Function.Basic

/-! The registry: `registry_post` and `registry_find` of any number of processes, one section under
the registry lock at a time. Symbols are addresses and 0 is `NULL`. -/

namespace Subcontexts.Registry
variable {Name : Type} [DecidableEq Name]

abbrev Pid := Nat

def EINVAL : Nat := 22

/-- `registry_entry`; the list holds them in the order of their `next` pointers. -/
structure RegistryEntry (Name : Type) where
  name : Name
  sym : Nat
  deriving DecidableEq, Repr

def findEntry : List (RegistryEntry Name) → Name → Nat
  | [], _ => 0
  | entry :: list, name => if entry.name = name then entry.sym else findEntry list name

inductive Pc (Name : Type) where
  | idle
  | postCheck (name : Name) (sym : Nat)
  | postMalloc (name : Name) (sym : Nat)
  | postInsert (name : Name) (sym : Nat)
  | find (name : Name)
  deriving DecidableEq, Repr

inductive Return (Name : Type) where
  | post (name : Name) (sym rc : Nat)
  | find (name : Name) (sym : Nat)
  deriving DecidableEq, Repr

/-- `returns` has the calls that have returned, the last one first. -/
structure State (Name : Type) where
  list : List (RegistryEntry Name)
  pc : Pid → Pc Name
  returns : List (Return Name)

inductive Action (Name : Type) where
  | registryPost (p : Pid) (name : Name) (sym : Nat)
  | check (p : Pid)
  | malloc (p : Pid)
  | insert (p : Pid)
  | registryFind (p : Pid) (name : Name)
  | find (p : Pid)
  deriving DecidableEq, Repr

def State.goto (s : State Name) (p : Pid) (pc : Pc Name) : State Name :=
  { s with pc := Function.update s.pc p pc }

def State.return (s : State Name) (p : Pid) (r : Return Name) : State Name :=
  { s.goto p .idle with returns := r :: s.returns }

def step (s : State Name) : Action Name → Option (State Name)
  | .registryPost p name sym =>
    if s.pc p = .idle ∧ sym ≠ 0 then some (s.goto p (.postCheck name sym)) else none
  | .check p =>
    match s.pc p with
    | .postCheck name sym =>
      if findEntry s.list name ≠ 0 then some (s.return p (.post name sym EINVAL))
      else some (s.goto p (.postMalloc name sym))
    | _ => none
  | .malloc p =>
    match s.pc p with
    | .postMalloc name sym => some (s.goto p (.postInsert name sym))
    | _ => none
  | .insert p =>
    match s.pc p with
    | .postInsert name sym =>
      some { s.return p (.post name sym 0) with list := ⟨name, sym⟩ :: s.list }
    | _ => none
  | .registryFind p name => if s.pc p = .idle then some (s.goto p (.find name)) else none
  | .find p =>
    match s.pc p with
    | .find name => some (s.return p (.find name (findEntry s.list name)))
    | _ => none

def State.init (s : State Name) : Prop := s.list = [] ∧ (∀ p, s.pc p = .idle) ∧ s.returns = []

def names (list : List (RegistryEntry Name)) : List Name := list.map RegistryEntry.name

section Find
variable {list : List (RegistryEntry Name)} {name : Name}

theorem findEntry_of_mem (hnodup : (names list).Nodup) {sym : Nat} (h : ⟨name, sym⟩ ∈ list) :
    findEntry list name = sym := by
  induction list with
  | nil => cases h
  | cons entry list ih =>
    obtain ⟨hnew, hrest⟩ := List.nodup_cons.mp hnodup
    rcases List.mem_cons.mp h with rfl | h
    · exact if_pos rfl
    · have hne : entry.name ≠ name := by
        rintro rfl
        exact hnew (List.mem_map.mpr ⟨_, h, rfl⟩)
      rw [findEntry, if_neg hne]
      exact ih hrest h

theorem findEntry_ne_zero (hsym : ∀ e ∈ list, e.sym ≠ 0) (h : name ∈ names list) :
    findEntry list name ≠ 0 := by
  induction list with
  | nil => cases h
  | cons entry list ih =>
    rw [List.forall_mem_cons] at hsym
    rw [findEntry]
    by_cases hne : entry.name = name
    · rw [if_pos hne]
      exact hsym.1
    · rw [if_neg hne]
      rcases List.mem_cons.mp h with heq | h
      · exact absurd heq.symm hne
      · exact ih hsym.2 h

end Find
end Subcontexts.Registry
