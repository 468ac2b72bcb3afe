import FridaCore.Support.Bisect

/-!
# Images and the addresses in them

`CsSignature` of `src/fruity/cs-signature.vala`: the images of a process with the
generations they have been mapped at, and the module an address is in.

Owners are objects. A refresh changes those that are known and adds those that are not, so
they are given by their numbers, and `owner` tells their fields.
-/

namespace FridaCore.Fruity

structure CsSigSegment where
  name : String
  vmaddr : UInt64
  vmsize : UInt64
  deriving DecidableEq, Repr

structure CsSigOwner where
  uuid : List UInt8
  path : String := ""
  imageBase : UInt64 := 0
  imageEnd : UInt64 := 0
  segments : List CsSigSegment := []
  version : Option String := none
  mappedGenStart : UInt32 := 1
  mappedGenEnd : UInt32 := 0
  deriving DecidableEq, Repr

def ownerIsMappedAt (owner : CsSigOwner) (gen : UInt32) : Bool :=
  if gen < owner.mappedGenStart then false
  else if owner.mappedGenEnd = 0 then true
  else gen < owner.mappedGenEnd

structure CsSegIndexEntry where
  start : UInt64
  stop : UInt64
  owner : Nat
  deriving DecidableEq, Repr

structure CsSignature where
  owner : Nat → CsSigOwner
  owners : List Nat
  segIndex : Option (List CsSegIndexEntry) := none
  segIndexGen : UInt32 := 0

/-- What `on_symbol` is told. There is no index, `uint32.MAX`, for an address in no module. -/
structure Symbol where
  address : UInt64
  moduleIndex : Option Nat
  rel : UInt32
  deriving DecidableEq, Repr

/-- Where the loop of `resolve_addresses` is at. -/
structure Resolution where
  symbols : List Symbol := []
  usedOwnerToMod : Nat → Option Nat := fun _ => none
  moduleList : List Nat := []

namespace CsSignature

def update (s : CsSignature) (o : Nat) (f : CsSigOwner → CsSigOwner) : CsSignature :=
  { s with owner := Function.update s.owner o (f (s.owner o)) }

def invalidateIndex (s : CsSignature) : CsSignature :=
  { s with segIndex := none, segIndexGen := 0 }

/-- The first loop of `apply_refresh`, for one owner. -/
def endIfGone (fresh : List Nat) (gen : UInt32) (s : CsSignature) (cur : Nat) : CsSignature :=
  if (s.owner cur).mappedGenEnd ≠ 0 then s
  else if fresh.any fun f => (s.owner cur).uuid = (s.owner f).uuid then s
  else s.update cur fun o => { o with mappedGenEnd := gen }

/-- The second loop of `apply_refresh`, for one owner. -/
def refreshOwner (gen : UInt32) (s : CsSignature) (f : Nat) : CsSignature :=
  match s.owners.find? fun existing => (s.owner existing).uuid = (s.owner f).uuid with
  | none =>
    { s.update f fun o => { o with mappedGenStart := gen, mappedGenEnd := 0 } with
      owners := s.owners ++ [f] }
  | some cur => s.update cur fun o =>
      { o with
        path := (s.owner f).path
        imageBase := (s.owner f).imageBase
        imageEnd := (s.owner f).imageEnd
        segments := (s.owner f).segments
        version := (s.owner f).version }

def applyRefresh (s : CsSignature) (fresh : List Nat) (gen : UInt32) : CsSignature :=
  let s := s.owners.foldl (endIfGone fresh gen) s
  let s := fresh.foldl (refreshOwner gen) s
  s.invalidateIndex

def noteUnmappedUuid (s : CsSignature) (uuid : List UInt8) (gen : UInt32) : CsSignature :=
  match s.owners.find? fun o => (s.owner o).mappedGenEnd = 0 ∧ (s.owner o).uuid = uuid with
  | none => s
  | some o => (s.update o fun x => { x with mappedGenEnd := gen }).invalidateIndex

def buildIndex (s : CsSignature) (gen : UInt32) : List CsSegIndexEntry :=
  let entries := (s.owners.filter fun o => ownerIsMappedAt (s.owner o) gen).flatMap fun o =>
    ((s.owner o).segments.filter fun seg => seg.name ≠ "__PAGEZERO").map fun seg =>
      { start := seg.vmaddr, stop := seg.vmaddr + seg.vmsize, owner := o }
  entries.mergeSort fun a b => a.start ≤ b.start

def ensureIndex (s : CsSignature) (gen : UInt32) : CsSignature :=
  if s.segIndex.isSome ∧ s.segIndexGen = gen then s
  else { s with segIndex := some (s.buildIndex gen), segIndexGen := gen }

/-- The backward loop of `try_resolve`, over the entries below a position. -/
def scanBack (index : List CsSegIndexEntry) (addr : UInt64) : Nat → Option CsSegIndexEntry
  | 0 => none
  | i + 1 =>
    match index[i]? with
    | none => none
    | some e =>
      if e.start > addr then scanBack index addr i
      else if addr < e.stop then some e
      else scanBack index addr i

def tryResolve (s : CsSignature) (addr : UInt64) : Option (Nat × UInt32) :=
  let index := s.segIndex.getD []
  match bisectLast (fun i => index[i]?.any fun e => e.start ≤ addr) 0 index.length none with
  | none => none
  | some best =>
    (scanBack index addr (best + 1)).map fun e =>
      (e.owner, (addr - (s.owner e.owner).imageBase).toUInt32)

def resolveAddress (s : CsSignature) (r : Resolution) (addr : UInt64) : Resolution :=
  match s.tryResolve addr with
  | none => { r with symbols := r.symbols ++ [⟨addr, none, 0⟩] }
  | some (owner, rel) =>
    match r.usedOwnerToMod owner with
    | none =>
      { symbols := r.symbols ++ [⟨addr, some r.moduleList.length, rel⟩]
        usedOwnerToMod := Function.update r.usedOwnerToMod owner (some r.moduleList.length)
        moduleList := r.moduleList ++ [owner] }
    | some modIdx => { r with symbols := r.symbols ++ [⟨addr, some modIdx, rel⟩] }

def resolveAddresses (s : CsSignature) (gen : UInt32) (addrs : List UInt64) :
    CsSignature × Resolution :=
  let s := s.ensureIndex gen
  (s, addrs.foldl s.resolveAddress {})

inductive Operation
  | applyRefresh (fresh : List Nat) (gen : UInt32)
  | noteUnmappedUuid (uuid : List UInt8) (gen : UInt32)
  | resolveAddresses (gen : UInt32) (addrs : List UInt64)

def perform (s : CsSignature) : Operation → CsSignature
  | .applyRefresh fresh gen => s.applyRefresh fresh gen
  | .noteUnmappedUuid uuid gen => s.noteUnmappedUuid uuid gen
  | .resolveAddresses gen addrs => (s.resolveAddresses gen addrs).1

end CsSignature

end FridaCore.Fruity
