import FridaCore.Packages.Metadata
import FridaCore.Packages.Resolve

/-!
# Lockfiles

Reading a lockfile into records by path, rebuilding the tree from the records,
and writing a tree back. Which packages are written as development-only or
optional-only is worked out on the tree.
-/

namespace FridaCore.Packages

open Std (TreeMap)
open Semver

section
variable [UnicharTables]

def requireMember (pathKey member : String) : Option String → Result (Option String)
  | some s => .ok (some s)
  | none => if pathKey = "" then .ok none
    else protocol s!"Lockfile '{member}' for '{pathKey}' missing or invalid"

def readLockVersion (pathKey : String) (r : Json) : Result (Option SemverVersion) := do
  match ← requireMember pathKey "version" (r.string? "version") with
  | some raw => return some (← parseVersion raw)
  | none => return none

def readLockSource (pathKey member : String) (r : Json) : Result (Option String) :=
  if pathKey = "" then .ok none else requireMember pathKey member (r.string? member)

def readLockPackage (pathKey : String) (r : Json) : Result PackageLockPackageInfo := do
  return {
    version := ← readLockVersion pathKey r
    dependencies := ← readDependencies r
    isOptional := (r.member? "optional").any Json.isTrue
    deprecated := r.string? "deprecated"
    optionalPeers := some (← readOptionalPeers r)
    bin := ← readBin r none
    hasInstallScript := readHasInstallScript r
    license := readLicense r
    funding := ← readFunding r
    engines := ← readEngines r
    os := ← readArrayStr r "os"
    cpu := ← readArrayStr r "cpu"
    libc := ← readArrayStr r "libc"
    resolved := ← readLockSource pathKey "resolved" r
    integrity := ← readLockSource pathKey "integrity" r }

def readLockPackages : List (String × Json) → Result (List (String × PackageLockPackageInfo))
  | [] => .ok []
  | (_, .null) :: rest => readLockPackages rest
  | (pathKey, r) :: rest => do
    return (pathKey, ← readLockPackage pathKey r) :: (← readLockPackages rest)

def readLockfile (doc : Json) : Result (List (String × PackageLockPackageInfo)) :=
  match doc.member? "packages" with
  | some (.obj members) => readLockPackages members
  | _ => protocol "Lockfile 'packages' member missing or not an object"

end

/-- Both sides have the same names, and the lockfile the manifest's ranges and roles. -/
def depsMatch (manifest : Manifest) (deps : PackageDependencies) : Bool :=
  manifest.dependencies.values.all (fun d =>
    (deps.get? d.name).any fun l => l.range = d.range ∧ l.role = d.role) &&
  deps.values.all fun l => manifest.dependencies.contains l.name

def lockNames : List String → Result (List String)
  | [] => .ok []
  | "node_modules" :: seg :: rest =>
    if Text.hasPrefix seg "@" then
      match rest with
      | [] => protocol "Invalid lockfile"
      | seg' :: rest => do return (seg ++ "/" ++ seg') :: (← lockNames rest)
    else do return seg :: (← lockNames rest)
  | _ => protocol "Invalid lockfile"

def descend : Graph → NodeId → List String → Graph × NodeId
  | g, cur, [] => (g, cur)
  | g, cur, name :: rest =>
    match g.child? cur name with
    | some next => descend g next rest
    | none =>
      let (g, next) := g.create { name := some name }
      descend ((g.setChild cur name next).setParent next (some cur)) next rest

/-- What `lock_to_graph` sets on the node at the end of the path. -/
def PackageNode.withLock (n : PackageNode) (pkg : PackageLockPackageInfo) : PackageNode where
  name := n.name
  version := pkg.version
  dependencies := pkg.dependencies
  optionalPeers := pkg.optionalPeers
  isOptional := pkg.isOptional
  deprecated := pkg.deprecated
  bin := pkg.bin
  hasInstallScript := pkg.hasInstallScript
  license := pkg.license
  funding := pkg.funding
  engines := pkg.engines
  os := pkg.os
  cpu := pkg.cpu
  libc := pkg.libc
  resolved := pkg.resolved
  integrity := pkg.integrity
  shasum := n.shasum
  activeDepsCache := n.activeDepsCache
  published := ⟨pkg.integrity, none⟩

def lockEntry (g : Graph) (key : String) (pkg : PackageLockPackageInfo) : Result Graph := do
  let (g, cur) := descend g rootId (← lockNames (Text.split key '/'))
  return { g with node := Function.update g.node cur ((g.node cur).withLock pkg) }

def lockEntries : Graph → List (String × PackageLockPackageInfo) → Result Graph
  | g, [] => .ok g
  | g, (key, pkg) :: rest => do
    if key = "" then lockEntries g rest else lockEntries (← lockEntry g key pkg) rest

def lockToGraph (manifest : Manifest) (packages : List (String × PackageLockPackageInfo)) :
    Result Graph :=
  lockEntries (rootGraph manifest) packages

namespace Graph

/-- `collect_all_package_paths`, from the root. -/
def collectAllPackagePaths (g : Graph) (root : NodeId) : Result (List String) := do
  ((← g.preorder root).filter fun x => (g.parent x).isSome).mapM g.computePath

def pathMapWithin (g : Graph) : Nat → NodeId → String → Result (List (String × NodeId))
  | 0, _, _ => .error .diverges
  | fuel + 1, x, key => do
    let below ← (g.childList x).mapM fun c =>
      g.pathMapWithin fuel c ((if key = "" then "" else key ++ "/") ++ "node_modules/" ++ g.name c)
    return (key, x) :: below.flatten

/-- The map is filled from the last child to the first, so of two nodes with
one path the first in the order of the tree stays. -/
def buildPathMap (g : Graph) (root : NodeId) : Result (TreeMap String NodeId) := do
  return (← g.pathMapWithin g.fuel root "").foldr (fun (key, x) m => m.insert key x) ∅

def nonDevProviders (g : Graph) (x : NodeId) : Result (List NodeId) := do
  let deps := (g.activeDeps x).values.filter (·.role ≠ .development)
  return (← deps.mapM fun d => g.findProvider x d.name).filterMap id

def nonDevReachable (g : Graph) : Nat → Finset NodeId → List NodeId → List String →
    Result (List String)
  | 0, _, _, _ => .error .diverges
  | _ + 1, _, [], reachable => .ok reachable
  | fuel + 1, visited, x :: queue, reachable => do
    if x ∈ visited then g.nonDevReachable fuel visited queue reachable
    else
      let path ← g.computePath x
      g.nonDevReachable fuel (insert x visited) (queue ++ (← g.nonDevProviders x))
        (if path = "" then reachable else reachable.insert path)

def markReachableThroughNonDevDeps (g : Graph) (root : NodeId) : Result (List String) := do
  let deps := ((List.range g.size).map fun x => (g.activeDeps x).values.length).sum
  g.nonDevReachable (2 * deps + 2) ∅ (← g.nonDevProviders root) []

def computeDevOnlyPackages (g : Graph) (root : NodeId) : Result (List String) := do
  let reachable ← g.markReachableThroughNonDevDeps root
  return (← g.collectAllPackagePaths root).filter (· ∉ reachable)

/-- A package is required if its parent depends on it other than optionally. -/
def markRequiredPackages (g : Graph) (root : NodeId) : Result (List String) := do
  let required := (← g.preorder root).flatMap fun x => (g.childList x).filter fun c =>
    ((g.activeDeps x).get? (g.name c)).any (·.role ≠ .optional)
  required.mapM g.computePath

def computeOptionalOnlyPackages (g : Graph) (root : NodeId) : Result (List String) := do
  let required ← g.markRequiredPackages root
  return (← g.collectAllPackagePaths root).filter (· ∉ required)

end Graph

def writeRootPackage (manifest : Manifest) : Json :=
  .obj (writeString "name" manifest.name ++ writeVersion manifest.version ++
    writeString "license" manifest.license ++ writeFunding manifest.funding ++
    writeDependenciesSection "dependencies" (manifest.dependencies.withRole .runtime) ++
    writeDependenciesSection "devDependencies" (manifest.dependencies.withRole .development) ++
    writeMapStrStr manifest.engines "engines")

/-- `dev` takes precedence over `optional`. -/
def writeFlags (devOnly optionalOnly : List String) (key : String) : List (String × Json) :=
  if key ∈ devOnly then [("dev", .bool true)]
  else if key ∈ optionalOnly then [("optional", .bool true)]
  else []

def writePackage (flags : List (String × Json)) (pn : PackageNode) : Result Json := do
  let optionalPeers ← writeOptionalPeers pn.optionalPeers
  return .obj (writeVersion pn.version ++
    [("resolved", stringValue pn.resolved), ("integrity", stringValue pn.integrity)] ++
    writeArrayStr "cpu" pn.cpu ++ writeHasInstallScript pn.hasInstallScript ++
    writeString "license" pn.license ++ flags ++
    writeArrayStr "os" pn.os ++ writeArrayStr "libc" pn.libc ++
    writeString "deprecated" pn.deprecated ++ writeMapStrStr pn.bin "bin" ++
    writeDependenciesSection "dependencies" (pn.dependencies.withRole .runtime) ++
    writeMapStrStr pn.engines "engines" ++
    writeDependenciesSection "optionalDependencies" (pn.dependencies.withRole .optional) ++
    optionalPeers ++ writeFunding pn.funding ++
    writeDependenciesSection "peerDependencies" (pn.dependencies.withRole .peer))

def writePackages (g : Graph) (devOnly optionalOnly : List String) :
    List (String × NodeId) → Result (List (String × Json))
  | [] => .ok []
  | (key, x) :: rest => do
    if key = "" then writePackages g devOnly optionalOnly rest
    else
      let json ← writePackage (writeFlags devOnly optionalOnly key) (g.node x)
      return (key, json) :: (← writePackages g devOnly optionalOnly rest)

def writeLockfile (manifest : Manifest) (g : Graph) (directory : String) : Result Json := do
  let pathMap ← g.buildPathMap rootId
  let devOnly ← g.computeDevOnlyPackages rootId
  let optionalOnly ← g.computeOptionalOnlyPackages rootId
  let packages ← writePackages g devOnly optionalOnly pathMap.toList
  return .obj ([("name", .str (manifest.name.getD directory))] ++ writeVersion manifest.version ++
    [("lockfileVersion", .int 3), ("requires", .bool true),
      ("packages", .obj (("", writeRootPackage manifest) :: packages))])

end FridaCore.Packages
