import Mathlib

/-!
# Process maps over time

`ProcMapsSnapshot` of `src/linux/proc-maps.vala`: the mappings of a process, each
with the generations it was there for. A mapping without an end is still there.
Nothing is ever taken out of the list; what is unmapped is cut off and ended.
-/

namespace FridaCore.Linux

structure DevId where
  major : UInt32 := 0
  minor : UInt32 := 0
  deriving DecidableEq, Repr

/-- `stop` is `end` in the source. -/
structure Mapping where
  start : UInt64
  stop : UInt64
  fileOffset : UInt64
  readable : Bool := false
  writable : Bool := false
  executable : Bool := false
  shared : Bool := false
  device : DevId
  inode : UInt64
  path : String
  startGen : UInt32
  endGen : UInt32
  deriving DecidableEq, Repr

namespace Mapping

/-- `mapping_contains` -/
def contains (m : Mapping) (addr : UInt64) : Bool := addr ≥ m.start && addr < m.stop

/-- `mapping_alive_at` -/
def aliveAt (m : Mapping) (gen : UInt32) : Bool :=
  m.startGen ≤ gen && (m.endGen = 0 || gen < m.endGen)

/-- The part of a mapping that is split off has its file, but not its permissions. -/
def part (m : Mapping) (start stop fileOffset : UInt64) (endGen : UInt32) : Mapping :=
  { start, stop, fileOffset, device := m.device, inode := m.inode, path := m.path
    startGen := m.startGen, endGen }

/-- What becomes of a mapping when a range ends at a generation, and what is inserted
behind it. -/
def endRange (m : Mapping) (start stop : UInt64) (gen : UInt32) : Mapping × List Mapping :=
  if m.endGen ≠ 0 then (m, [])
  else if stop ≤ m.start ∨ start ≥ m.stop then (m, [])
  else if start ≤ m.start ∧ stop ≥ m.stop then ({ m with endGen := gen }, [])
  else if start ≤ m.start ∧ stop < m.stop then
    ({ m with start := stop, fileOffset := m.fileOffset + (stop - m.start) },
      [m.part m.start stop m.fileOffset gen])
  else if start > m.start ∧ stop ≥ m.stop then
    ({ m with stop := start },
      [m.part start m.stop (m.fileOffset + (start - m.start)) gen])
  else if start > m.start ∧ stop < m.stop then
    ({ m with stop := start },
      [m.part start stop (m.fileOffset + (start - m.start)) gen,
        m.part stop m.stop (m.fileOffset + (stop - m.start)) 0])
  else (m, [])

end Mapping

/-- What `ProcMapsIter` reads from a line. -/
structure MapsLine where
  start : UInt64
  stop : UInt64
  fileOffset : UInt64
  flags : String
  device : DevId
  inode : UInt64
  path : String
  deriving DecidableEq, Repr

/-- `normalize_path` -/
def normalizePath (path : String) : String :=
  let suffix := " (deleted)"
  if path.endsWith suffix then (path.dropEnd suffix.length).toString else path

structure NewMapping where
  fileOffset : UInt64
  vmFlags : UInt64
  device : DevId
  inode : UInt64
  path : String
  deriving DecidableEq, Repr

structure ProcMapsSnapshot where
  gen : UInt32 := 1
  maps : List Mapping
  deriving DecidableEq, Repr

namespace ProcMapsSnapshot

/-- `build_from_pid` -/
def buildFromPid (lines : List MapsLine) : ProcMapsSnapshot :=
  { maps := lines.map fun it =>
      { start := it.start, stop := it.stop, fileOffset := it.fileOffset
        readable := it.flags.toList[0]? = some 'r'
        writable := it.flags.toList[1]? = some 'w'
        executable := it.flags.toList[2]? = some 'x'
        shared := it.flags.toList[3]? = some 's'
        device := it.device, inode := it.inode, path := normalizePath it.path
        startGen := 1, endGen := 0 } }

/-- The body of the loop of `end_range_at_gen`, at an index. -/
def endRangeAt (start stop : UInt64) (gen : UInt32) (maps : List Mapping) (i : Nat) :
    List Mapping :=
  match maps[i]? with
  | some m =>
    let (m, inserted) := m.endRange start stop gen
    let maps := maps.set i m
    maps.take (i + 1) ++ inserted ++ maps.drop (i + 1)
  | none => maps

/-- The loop goes down from the last index, so that what it inserts is not visited. -/
def endRangeFrom (start stop : UInt64) (gen : UInt32) : Nat → List Mapping → List Mapping
  | 0, maps => maps
  | i + 1, maps => endRangeFrom start stop gen i (endRangeAt start stop gen maps i)

def endRangeAtGen (s : ProcMapsSnapshot) (start stop : UInt64) (gen : UInt32) : ProcMapsSnapshot :=
  { s with maps := endRangeFrom start stop gen s.maps.length s.maps }

def insertSorted (m : Mapping) : List Mapping → List Mapping
  | [] => [m]
  | c :: rest => if c.start < m.start then c :: insertSorted m rest else m :: c :: rest

def newMapping (gen : UInt32) (start stop : UInt64) (new : NewMapping) : Mapping :=
  { start, stop, fileOffset := new.fileOffset
    readable := new.vmFlags &&& 1 ≠ 0
    writable := new.vmFlags &&& 2 ≠ 0
    executable := new.vmFlags &&& 4 ≠ 0
    shared := new.vmFlags &&& 8 ≠ 0
    device := new.device, inode := new.inode, path := new.path
    startGen := gen, endGen := 0 }

def applyCreate (s : ProcMapsSnapshot) (newGen : UInt32) (start stop : UInt64)
    (new : NewMapping) : ProcMapsSnapshot :=
  let s := s.endRangeAtGen start stop newGen
  { gen := newGen, maps := insertSorted (newMapping newGen start stop new) s.maps }

def applyDestroyRange (s : ProcMapsSnapshot) (newGen : UInt32) (start stop : UInt64) :
    ProcMapsSnapshot :=
  { s.endRangeAtGen start stop newGen with gen := newGen }

def isMatch (addr : UInt64) (gen : UInt32) (c : Mapping) : Bool := c.contains addr && c.aliveAt gen

def scanDown (maps : List Mapping) (addr : UInt64) (gen : UInt32) : Nat → Option Mapping
  | 0 => none
  | i + 1 =>
    match maps[i]? with
    | some c =>
      if addr < c.start then none
      else if isMatch addr gen c then some c
      else scanDown maps addr gen i
    | none => none

def scanUp (addr : UInt64) (gen : UInt32) : List Mapping → Option Mapping
  | [] => none
  | c :: rest =>
    if addr < c.start then none
    else if isMatch addr gen c then some c
    else scanUp addr gen rest

/-- The loop of `find_mapping_at_gen`; `hi` is one more than in the source, so that it
is never negative. -/
def search (maps : List Mapping) (addr : UInt64) (gen : UInt32) : Nat → Nat → Nat → Option Mapping
  | 0, _, _ => none
  | fuel + 1, lo, hi =>
    if lo < hi then
      let mid := lo + (hi - 1 - lo) / 2
      match maps[mid]? with
      | some m =>
        if addr < m.start then search maps addr gen fuel lo mid
        else if addr ≥ m.stop then search maps addr gen fuel (mid + 1) hi
        else (scanDown maps addr gen (mid + 1)).or (scanUp addr gen (maps.drop (mid + 1)))
      | none => none
    else none

/-- The distance between `lo` and `hi` shrinks with every turn. -/
def findMappingAtGen (s : ProcMapsSnapshot) (addr : UInt64) (gen : UInt32) : Option Mapping :=
  search s.maps addr gen s.maps.length 0 s.maps.length

end ProcMapsSnapshot

end FridaCore.Linux
