import Subcontexts.Registry.Posted

/-! How processes come by the registry: `subcontext_main` of the registry's own process, step by
step, and `__subcontexts_registry_bootstrap` in any number of other processes, one call of a process
at a time. Pointers are addresses and 0 is `NULL`. -/

namespace Subcontexts.Bootstrap
open Registry (Pid findEntry)

inductive Func where
  | post
  | find
  deriving DecidableEq, Repr

def Func.name : Func → String
  | .post => "subcontexts_registry:post(char*,void*)"
  | .find => "subcontexts_registry:find(char*)"

/-- The posts of `subcontext_main`, and the lookups it asserts, in order. -/
def functions : List Func := [.post, .find]

def registryName : String := "subcontexts registry"

/-- The process of the registry, and where it has loaded `funcs` and the functions. -/
structure Image where
  server : Pid
  funcs : Nat
  address : Func → Nat
  funcs_ne_zero : funcs ≠ 0
  ne_zero : ∀ f, address f ≠ 0

/-- Where `subcontext_main` is: before its next post (the write of the name comes behind the last
one), the write of `user_root`, the assertion on its own bootstrap, those on the lookups (`found`
inside one of them), or in its loop. -/
inductive Main where
  | post (left : List Func)
  | root
  | bootstrap
  | find (left : List Func)
  | found (f : Func) (left : List Func)
  | spin
  | aborted
  deriving DecidableEq, Repr

/-- An entry of `sc_local_list`, with what another subcontext holds in the two fields read here. -/
inductive Local where
  | registry
  | other (descriptiveName : Option String) (userRoot : Nat)
  deriving DecidableEq, Repr

/-- Where a process is in `__subcontexts_registry_bootstrap`: outside, behind `sc_join`, or behind
the assertion on the name. `dead` is the fault of `strcmp` on `NULL`, or the failed assertion. -/
inductive Loc where
  | idle
  | joined
  | checked
  | dead
  deriving DecidableEq, Repr

/-- A process: the `static` variable `retval`, and `sc_local_list` from its head on. -/
structure Client where
  retval : Nat
  locals : List Local
  loc : Loc
  deriving DecidableEq, Repr

/-- `returned` has what the calls of `__subcontexts_registry_bootstrap` have returned, the last one
first. -/
structure State where
  registry : Registry.State String
  main : Main
  descriptiveName : Option String
  userRoot : Nat
  client : Pid → Client
  returned : List (Pid × Nat)

/-- `opened` and `joined` are the answers of `fopen` and of `sc_join` on a subcontext that the
process has not joined yet. -/
inductive Action where
  | main (opened joined : Bool)
  | bootstrap (p : Pid) (opened joined : Bool)
  | assertName (p : Pid)
  | readRoot (p : Pid)
  | join (p : Pid) (descriptiveName : Option String) (userRoot : Nat)
  | registry (a : Registry.Action String)
  deriving DecidableEq, Repr

def State.nameOf (s : State) : Local → Option String
  | .registry => s.descriptiveName
  | .other descriptiveName _ => descriptiveName

def State.rootOf (s : State) : Local → Nat
  | .registry => s.userRoot
  | .other _ userRoot => userRoot

/-- `__subcontexts_registry_bootstrap` up to the assertion on the name, with what it returns where
it does so before. `sc_join` refuses a subcontext that the process has joined already. -/
def State.enter (s : State) (opened joined : Bool) (c : Client) : Client × Option Nat :=
  if c.retval ≠ 0 then (c, some c.retval)
  else if c.locals.head?.bind s.nameOf = some registryName then
    let retval := (c.locals.head?.map s.rootOf).getD 0
    ({ c with retval := retval }, some retval)
  else if ¬ opened then (c, some 0)
  else if ¬ joined ∨ .registry ∈ c.locals then (c, some 0)
  else ({ c with locals := .registry :: c.locals, loc := .joined }, none)

def State.set (s : State) (p : Pid) (c : Client) : State :=
  { s with client := Function.update s.client p c }

def State.return (s : State) (p : Pid) : Option Nat → State
  | some r => { s with returned := (p, r) :: s.returned }
  | none => s

def State.call (s : State) (a : Registry.Action String) (main : Main) : Option State :=
  (Registry.step s.registry a).map fun registry => { s with registry := registry, main := main }

/-- What `subcontext_main` returns from `registry_post` is not looked at. -/
def subcontextMain (img : Image) (opened joined : Bool) (s : State) : Option State :=
  match s.main, s.registry.pc img.server with
  | .post (f :: left), .idle => s.call (.registryPost img.server f.name (img.address f)) (.post left)
  | .post left, .postCheck _ _ => s.call (.check img.server) (.post left)
  | .post left, .postMalloc _ _ => s.call (.malloc img.server) (.post left)
  | .post left, .postInsert _ _ => s.call (.insert img.server) (.post left)
  | .post [], .idle => some { s with main := .root, descriptiveName := some registryName }
  | .root, _ => some { s with main := .bootstrap, userRoot := img.funcs }
  | .bootstrap, _ =>
    let (c, r) := s.enter opened joined (s.client img.server)
    some { (s.set img.server c).return img.server r with
      main := if r = some img.funcs then .find functions else .aborted }
  | .find (f :: left), .idle => s.call (.registryFind img.server f.name) (.found f left)
  | .found f left, .find name =>
    s.call (.find img.server)
      (if findEntry s.registry.list name = img.address f then .find left else .aborted)
  | .find [], .idle => some { s with main := .spin }
  | _, _ => none

def caller : Registry.Action String → Pid
  | .registryPost p _ _ | .check p | .malloc p | .insert p | .registryFind p _ | .find p => p

def Begins : Registry.Action String → Prop
  | .registryPost .. | .registryFind .. => True
  | _ => False

instance : DecidablePred Begins
  | .registryPost .. | .registryFind .. => .isTrue trivial
  | .check _ | .malloc _ | .insert _ | .find _ => .isFalse id

def State.Free (s : State) (p : Pid) : Prop :=
  (s.client p).loc = .idle ∧ s.registry.pc p = .idle

instance (s : State) (p : Pid) : Decidable (s.Free p) := inferInstanceAs (Decidable (_ ∧ _))

/-- Processes other than the registry's call its functions through the pointer they were given. -/
def step (img : Image) (s : State) : Action → Option State
  | .main opened joined => subcontextMain img opened joined s
  | .bootstrap p opened joined =>
    if p ≠ img.server ∧ s.Free p then
      let (c, r) := s.enter opened joined (s.client p)
      some ((s.set p c).return p r)
    else none
  | .assertName p =>
    if (s.client p).loc = .joined then
      some (s.set p { s.client p with
        loc := if s.descriptiveName = some registryName then .checked else .dead })
    else none
  | .readRoot p =>
    if (s.client p).loc = .checked then
      some ((s.set p { s.client p with retval := s.userRoot, loc := .idle }).return p
        (some s.userRoot))
    else none
  | .join p descriptiveName userRoot =>
    if p ≠ img.server ∧ s.Free p then
      some (s.set p { s.client p with
        locals := .other descriptiveName userRoot :: (s.client p).locals })
    else none
  | .registry a =>
    if caller a ≠ img.server ∧
        (Begins a → (s.client (caller a)).loc = .idle ∧ (s.client (caller a)).retval = img.funcs) then
      s.call a s.main
    else none

/-- `subcontexts_init` has set the registry's subcontext up and calls its `subcontext_main`. -/
def State.init (img : Image) (s : State) : Prop :=
  s.registry.init ∧ s.main = .post functions ∧ s.descriptiveName = none ∧ s.userRoot = 0 ∧
  (∀ p, s.client p = ⟨0, if p = img.server then [.registry] else [], .idle⟩) ∧ s.returned = []

/-- No other subcontext goes by the registry's name. -/
def Genuine (_ : State) : Action → Prop
  | .join _ descriptiveName _ => descriptiveName ≠ some registryName
  | _ => True

instance (s : State) : (a : Action) → Decidable (Genuine s a)
  | .join _ _ _ => inferInstanceAs (Decidable (_ ≠ _))
  | .main _ _ | .bootstrap _ _ _ | .assertName _ | .readRoot _ | .registry _ => .isTrue trivial

@[simp] theorem State.set_client_self (s : State) (p : Pid) (c : Client) :
    (s.set p c).client p = c :=
  Function.update_self ..

theorem State.set_client_of_ne (s : State) {p q : Pid} (c : Client) (h : q ≠ p) :
    (s.set p c).client q = s.client q :=
  Function.update_of_ne h ..

theorem Func.name_injective : Function.Injective Func.name := by
  intro f g h
  cases f <;> cases g <;> first | rfl | exact absurd h (by decide)

end Subcontexts.Bootstrap
