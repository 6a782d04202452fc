import Subcontexts.Lib.Lines
import Subcontexts.Lib.Links
import Subcontexts.Lib.Scanf
import Subcontexts.Machine
import Subcontexts.Scon.Table

/-! The maps files of `/proc` as `map.c` reads and compares them: `Map_parse`, `Map_diff` and the
entries they link. `calloc` and `malloc` hand out the entry structs one after the other. A `Char`
of a line stands for one `char` of C. -/

namespace Subcontexts.Maps
open Scanf

abbrev Addr := Nat

/-- A `MapEntry` without its `next`. -/
structure MapEntry extends toRange : Scon.MapEntry where
  r : Bool
  w : Bool
  e : Bool
  p : Bool
  offset : Nat
  devMajor : Nat
  devMinor : Nat
  inode : Int
  pathname : List Char
  deriving DecidableEq, Repr

structure Node extends MapEntry where
  next : Option Addr
  deriving DecidableEq, Repr

/-- The entry structs; those below `used` are taken. -/
structure Heap where
  mem : Addr → Node
  used : Addr

structure Map where
  head : Option Addr
  size : Nat
  deriving DecidableEq, Repr

def Heap.alloc (h : Heap) (n : Node) : Addr × Heap :=
  (h.used, ⟨Function.update h.mem h.used n, h.used + 1⟩)

def Heap.setNext (h : Heap) (a : Addr) (next : Option Addr) : Heap :=
  { h with mem := Function.update h.mem a { h.mem a with next := next } }

def mapNew : Map := ⟨none, 0⟩

section Parse

def entryFormat : List Directive :=
  [.pointer, .lit '-', .pointer, .space, .chars 4, .space, .hex, .space, .hex, .lit ':', .hex, .space,
    .dec, .space, .word]

/-- The number that `sscanf` has stored at its `i`-th argument, where `calloc` has put a 0. -/
def numberAt (vs : List Value) (i : Nat) : Int :=
  match vs[i]? with
  | some (.number n) => n
  | _ => 0

def textAt (vs : List Value) (i : Nat) : List Char :=
  match vs[i]? with
  | some (.text cs) => cs
  | _ => []

def pathnameOf (buffer : List Char) : List Char := textAt (scan entryFormat buffer) 7

/-- The struct that `MapEntry_parse` fills; `junk` is what `flags` holds before. A longer pathname
runs out of its field. -/
def mapEntryParse (junk : Nat → Char) (buffer : List Char) : Except Halt MapEntry := do
  let vs := scan entryFormat buffer
  let flags (i : Nat) : Char := (textAt vs 2)[i]?.getD (junk i)
  haltIf .fault (128 ≤ (pathnameOf buffer).length)
  return {
    startAddr := (numberAt vs 0).toNat
    endAddr := (numberAt vs 1).toNat
    r := flags 0 = 'r'
    w := flags 1 = 'w'
    e := flags 2 = 'e'
    p := flags 3 = 'p'
    offset := (numberAt vs 3).toNat
    devMajor := (numberAt vs 4).toNat
    devMinor := (numberAt vs 5).toNat
    inode := numberAt vs 6
    pathname := pathnameOf buffer }

/-- The `while` loop of `Map_parse`; `junk i` is on the stack when the `i`-th entry is parsed. -/
def mapParseLoop (junk : Nat → Nat → Char) :
    Nat → List Char → Map → Option Addr → Heap → Except Halt (Map × Heap)
  | 0, _, _, _, _ => .error .fuel
  | fuel + 1, input, maps, curr, h =>
    match Lines.fgets 256 input with
    | none => .ok (maps, h)
    | some (line, input) => do
      let entry ← mapEntryParse (junk maps.size) line
      let (entry, h) := h.alloc ⟨entry, none⟩
      match curr with
      | none => mapParseLoop junk fuel input ⟨some entry, maps.size + 1⟩ (some entry) h
      | some curr =>
        mapParseLoop junk fuel input { maps with size := maps.size + 1 } (some entry)
          (h.setNext curr (some entry))

/-- `Map_parse`; `mapsfile` is what `fopen` finds, and `none` where it fails. -/
def mapParse (junk : Nat → Nat → Char) (mapsfile : Option (List Char)) (h : Heap) :
    Except Halt (Option Map × Heap) :=
  match mapsfile with
  | none => .ok (none, h)
  | some input => do
    let (maps, h) ← mapParseLoop junk (input.length + 1) input mapNew none h
    return (some maps, h)

end Parse

section Diff

def mapEntryCopy (h : Heap) (m : Addr) : Addr × Heap := h.alloc { h.mem m with next := none }

def mapEntryEqual (a b : MapEntry) : Bool := Scon.mapEntryEqual a.toRange b.toRange

/-- The inner loop of `Map_diff`. -/
def inBoth (h : Heap) (acurr : Addr) : Nat → Option Addr → Except Halt Bool
  | 0, _ => .error .fuel
  | _ + 1, none => .ok false
  | fuel + 1, some bcurr =>
    if mapEntryEqual (h.mem bcurr).toMapEntry (h.mem acurr).toMapEntry then .ok true
    else inBoth h acurr fuel (h.mem bcurr).next

/-- The outer loop of `Map_diff`; `diff_curr` is not set before the first copy. -/
def mapDiffLoop (before : Map) (bound : Nat) :
    Nat → Option Addr → Map → Option Addr → Heap → Except Halt (Map × Heap)
  | 0, _, _, _, _ => .error .fuel
  | _ + 1, none, diff, _, h => .ok (diff, h)
  | fuel + 1, some acurr, diff, diffCurr, h => do
    if ← inBoth h acurr bound before.head then
      mapDiffLoop before bound fuel (h.mem acurr).next diff diffCurr h
    else
      let (entry, h) := mapEntryCopy h acurr
      match diff.head, diffCurr with
      | none, _ =>
        mapDiffLoop before bound fuel (h.mem acurr).next { diff with head := some entry }
          (some entry) h
      | some _, none => .error .fault
      | some _, some diffCurr =>
        let h := h.setNext diffCurr (some entry)
        mapDiffLoop before bound fuel (h.mem acurr).next diff (some entry) h

/-- `Map_diff`; `fuel` bounds the two lists. -/
def mapDiff (fuel : Nat) (h : Heap) (before after : Map) : Except Halt (Map × Heap) :=
  mapDiffLoop before fuel fuel after.head mapNew none h

end Diff
end Subcontexts.Maps
