import Subcontexts.Region.Init

/-! `subcontexts_init`: it loads a program as a shared library, creates a subcontext, and imports the
ranges of `/proc/self/maps` into it, pass after pass, until a pass finds nothing new. -/

namespace Subcontexts.Loader
open Region

/-- What `russ_parseProcMaps` tells its callback about a line; `desc` is `none` for `NULL`. -/
structure Line where
  start : Nat
  «end» : Nat
  isR : Bool
  isW : Bool
  isX : Bool
  isP : Bool
  devno : Nat
  inode : Nat
  desc : Option (List UInt8)
  deriving DecidableEq, Repr

/-- `st_dev`, `st_ino` and `S_ISREG(st_mode)`. -/
structure Stat where
  stDev : Nat
  stIno : Nat
  isReg : Bool
  deriving DecidableEq, Repr

/-- `struct mapScanCallback_priv`, with the subcontext that `targSc` leads to. -/
structure Priv where
  world : World
  rwPOnly : Bool
  ignoreFile1 : Stat
  ignoreFile2 : Stat
  importCount : Nat
  kill : Bool

def Line.len (line : Line) : Nat := sub64 line.end line.start

def Line.prot (line : Line) : Nat :=
  (if line.isR then protRead else 0) ||| (if line.isW then protWrite else 0) |||
    (if line.isX then protExec else 0)

def Line.isOf (line : Line) (file : Stat) : Prop :=
  line.devno = file.stDev ∧ line.inode = file.stIno

instance (line : Line) (file : Stat) : Decidable (line.isOf file) :=
  inferInstanceAs (Decidable (_ ∧ _))

def Line.isBracketed (line : Line) : Prop := line.desc.bind List.head? = some 91

instance (line : Line) : Decidable line.isBracketed := inferInstanceAs (Decidable (_ = _))

/-- A call of the callback: the line, and what the system calls inside answer. -/
abbrev Callback := Line × Answers

section Scan
variable {pg : PageSize} (fp : FirstPage pg)

/-- The end of `mapScanCallback`, after an import has returned `rc`. -/
def Priv.imported (priv : Priv) (rc : Int) (world : World) : Bool × Priv :=
  if rc ≠ 0 then (false, { priv with world := world, kill := true })
  else (true, { priv with world := world, importCount := priv.importCount + 1 })

def mapScanCallback : Callback → Priv → Except Halt (Bool × Priv)
  | (line, answers), priv => do
    if line.isOf priv.ignoreFile1 then
      check line.isP
      return (true, priv)
    if line.isOf priv.ignoreFile2 then
      check (line.isP = false)
      return (true, priv)
    check line.isP
    if line.isBracketed then return (true, priv)
    if priv.rwPOnly ∧ (line.isR = false ∨ line.isW = false ∨ line.isX ∨ line.isP = false) then
      return (true, priv)
    if line.isR = false then
      check (line.isW = false)
      check (line.isX = false)
      let (rc, world) ← scImportProtNone fp answers priv.world line.start line.len
      return priv.imported rc world
    let (rc, world) ←
      scImport fp answers (fp.regionsCount + 1) priv.world line.start line.len line.prot
    return priv.imported rc world

/-- `russ_parseProcMaps`, which is not part of the sources, over the lines it reads. -/
abbrev ParseProcMaps :=
  List Callback → (Callback → Priv → Except Halt (Bool × Priv)) → Priv → Except Halt (Int × Priv)

/-- It calls back for each line in turn, until a callback returns `false`. -/
structure ParseProcMaps.Walks (parse : ParseProcMaps) : Prop where
  nil : ∀ cb priv r, parse [] cb priv = .ok r → r.2 = priv
  cons : ∀ c cs cb priv r, parse (c :: cs) cb priv = .ok r →
    ∃ go priv', cb c priv = .ok (go, priv') ∧
      (if go then ∃ r', parse cs cb priv' = .ok r' ∧ r.2 = r'.2 else r.2 = priv')

/-- What a pass finds when it starts: the address space of the process by then, and the lines of the
maps file. -/
structure Found where
  space : Space
  lines : List Callback

def Priv.start (priv : Priv) (rwPOnly : Bool) (space : Space) : Priv :=
  { priv with
    world := { priv.world with space := space }
    rwPOnly := rwPOnly
    importCount := 0 }

variable (parse : ParseProcMaps)

def pass (priv : Priv) (rwPOnly : Bool) (found : Found) : Except Halt Priv := do
  let (_, priv) ←
    parse found.lines (mapScanCallback fp) (priv.start rwPOnly found.space)
  return priv

/-- The `do` loop of `main`; `none` where an import has failed. -/
def secondPasses : List Found → Priv → Except Halt (Option Priv)
  | [], _ => .error .fuel
  | found :: rest, priv => do
    let priv ← pass fp parse priv true found
    if priv.kill then return none
    if 0 < priv.importCount then secondPasses rest priv else return some priv

/-- What `main` learns from its system calls, other than those of the passes. -/
structure MainAnswers where
  library : Bool
  symbol : Bool
  backingFile : Bool
  init : InitAnswers
  stat1 : Option Stat
  stat2 : Option Stat

/-- `main` returns, or it calls `app_main` with these arguments. -/
inductive Outcome where
  | returns (code : Int)
  | app (priv : Priv) (argv : List String)

/-- `main` from the point where the subcontext is there. -/
def importProgram (answers : MainAnswers) (world : World) (argv : List String) (first : Found)
    (second : List Found) : Except Halt Outcome := do
  match answers.stat1, answers.stat2 with
  | some ignoreFile1, some ignoreFile2 =>
    if ignoreFile1.isReg = false ∨ ignoreFile2.isReg = false then return .returns 3
    let priv ← pass fp parse ⟨world, false, ignoreFile1, ignoreFile2, 0, false⟩ false first
    if priv.kill then return .returns 1
    let last ← secondPasses fp parse second priv
    match last with
    | none => return .returns 1
    | some priv => return .app priv argv.tail
  | _, _ => return .returns 3

/-- `argv` after the option `--file` with its argument was taken out. -/
def dropFileOption : List String → List String
  | prog :: "--file" :: _ :: lib :: args => prog :: lib :: args
  | argv => argv

def main (answers : MainAnswers) (fuel : Nat) (w : World) (argv : List String) (first : Found)
    (second : List Found) : Except Halt Outcome := do
  let argv := dropFileOption argv
  if argv.length < 2 then return .returns 1
  if !answers.library then return .returns 2
  if !answers.symbol then return .returns 2
  if !answers.backingFile then return .returns 2
  match ← scInit fp answers.init fuel w with
  | none => return .returns 2
  | some world => importProgram fp parse answers world argv first second

end Scan
end Subcontexts.Loader
