import FridaCore.Packages.Semver

/-!
# Packages, dependencies and the package graph

The data of `PackageManager`. Nodes are objects, so a graph is a store of nodes
by identity. What tree surgery changes (`parent`, `children`, `marked`) stands
beside the rest of the node. A `Gee.TreeMap` iterates in key order, as
`Std.TreeMap` does; where the code iterates over a hash set or map, the model has
a list in some order.

A walk along parents that are linked in a cycle never ends. The walks are
bounded by the number of nodes, which no walk without a cycle exceeds.
-/

namespace FridaCore.Packages

open Std (TreeMap)

inductive PackageRole
  | runtime
  | development
  | optional
  | peer
  deriving DecidableEq, Repr

structure PackageDependency where
  name : String
  range : String
  role : PackageRole
  deriving DecidableEq, Repr

structure PackageDependencies where
  all : TreeMap String PackageDependency
  named : ∀ (name : String) (d : PackageDependency), all[name]? = some d → d.name = name

namespace PackageDependencies

def none : PackageDependencies := ⟨∅, by simp⟩

def add (deps : PackageDependencies) (d : PackageDependency) : PackageDependencies where
  all := deps.all.insert d.name d
  named := by
    intro name d' h
    rw [TreeMap.getElem?_insert] at h
    split at h
    · rename_i heq
      cases h
      simpa using heq
    · exact deps.named name d' h

def remove (deps : PackageDependencies) (name : String) : PackageDependencies where
  all := deps.all.erase name
  named := by
    intro name' d h
    rw [TreeMap.getElem?_erase] at h
    split at h
    · cases h
    · exact deps.named name' d h

def filter (deps : PackageDependencies) (keep : PackageDependency → Bool) :
    PackageDependencies where
  all := deps.all.filter fun _ d => keep d
  named := by
    intro name d h
    rw [TreeMap.getElem?_filter] at h
    obtain ⟨h, -⟩ := Option.pfilter_eq_some_iff.mp h
    exact deps.named name d h

def get? (deps : PackageDependencies) (name : String) : Option PackageDependency := deps.all[name]?

def contains (deps : PackageDependencies) (name : String) : Bool := deps.all.contains name

def values (deps : PackageDependencies) : List PackageDependency := deps.all.toList.map Prod.snd

/-- `compute_subset_with_role`, behind `runtime`, `development`, `optional` and `peer`. -/
def withRole (deps : PackageDependencies) (role : PackageRole) : List PackageDependency :=
  deps.values.filter (·.role = role)

end PackageDependencies

structure FundingSource where
  type : Option String
  url : String
  deriving DecidableEq, Repr

structure Manifest where
  name : Option String := none
  version : Option SemverVersion := none
  license : Option String := none
  funding : Option (List FundingSource) := none
  engines : Option (TreeMap String String) := none
  dependencies : PackageDependencies := .none

structure PackageAttributes where
  optionalPeers : Option (List String) := none
  deprecated : Option String := none
  bin : Option (TreeMap String String) := none
  hasInstallScript : Bool := false
  license : Option String := none
  funding : Option (List FundingSource) := none
  engines : Option (TreeMap String String) := none
  os : Option (List String) := none
  cpu : Option (List String) := none
  libc : Option (List String) := none

structure ResolvedPackageData extends PackageAttributes where
  name : String
  effectiveVersion : SemverVersion
  dependencies : PackageDependencies := .none
  resolvedUrl : String
  integrity : Option String := none
  shasum : Option String := none

structure PackageLockPackageInfo extends PackageAttributes where
  version : Option SemverVersion := none
  dependencies : PackageDependencies := .none
  isOptional : Bool := false
  resolved : Option String := none
  integrity : Option String := none

structure Published where
  integrity : Option String := none
  shasum : Option String := none
  deriving DecidableEq, Repr

structure PackageNode extends PackageAttributes where
  name : Option String := none
  version : Option SemverVersion := none
  dependencies : PackageDependencies := .none
  isOptional : Bool := false
  resolved : Option String := none
  integrity : Option String := none
  shasum : Option String := none
  /-- `_active_deps`: set by the first read of `active_deps` and final from then on. -/
  activeDepsCache : Option PackageDependencies := none
  /-- What the registry response or the lockfile the node comes from published.
  The code has no such field. -/
  published : Published := {}

abbrev NodeId := Nat

structure Graph where
  node : NodeId → PackageNode := fun _ => {}
  parent : NodeId → Option NodeId := fun _ => none
  children : NodeId → TreeMap String NodeId := fun _ => ∅
  marked : NodeId → Bool := fun _ => false
  /-- How many nodes have been created. -/
  size : Nat := 0

namespace Graph

/-- `new PackageNode`, without a parent or children. -/
def create (g : Graph) (n : PackageNode) : Graph × NodeId :=
  ({ node := Function.update g.node g.size n
     parent := Function.update g.parent g.size none
     children := Function.update g.children g.size ∅
     marked := Function.update g.marked g.size false
     size := g.size + 1 }, g.size)

def setParent (g : Graph) (x : NodeId) (p : Option NodeId) : Graph :=
  { g with parent := Function.update g.parent x p }

/-- `x.children[name] = c` -/
def setChild (g : Graph) (x : NodeId) (name : String) (c : NodeId) : Graph :=
  { g with children := Function.update g.children x ((g.children x).insert name c) }

/-- `x.children.unset (name)` -/
def unsetChild (g : Graph) (x : NodeId) (name : String) : Graph :=
  { g with children := Function.update g.children x ((g.children x).erase name) }

def child? (g : Graph) (x : NodeId) (name : String) : Option NodeId := (g.children x)[name]?

/-- `x.children.values` -/
def childList (g : Graph) (x : NodeId) : List NodeId := (g.children x).toList.map Prod.snd

def name (g : Graph) (x : NodeId) : String := (g.node x).name.getD ""

def version (g : Graph) (x : NodeId) : Result SemverVersion :=
  match (g.node x).version with
  | some v => .ok v
  | none => .error .crash

def fuel (g : Graph) : Nat := g.size + 1

/-- The development dependencies of anything but the root are left out, going
by whether the node has a parent at the first read. Nodes are read while they
are in the tree, except where the cache is set explicitly. -/
def activeDeps (g : Graph) (x : NodeId) : PackageDependencies :=
  match (g.node x).activeDepsCache with
  | some deps => deps
  | none =>
    if (g.parent x).isNone then (g.node x).dependencies
    else (g.node x).dependencies.filter (·.role ≠ .development)

def findProviderWithin (g : Graph) (name : String) : Nat → NodeId → Result (Option NodeId)
  | 0, _ => .error .diverges
  | fuel + 1, x =>
    match g.child? x name with
    | some c => .ok (some c)
    | none =>
      match g.parent x with
      | some p => findProviderWithin g name fuel p
      | none => .ok none

def findProvider (g : Graph) (x : NodeId) (name : String) : Result (Option NodeId) :=
  g.findProviderWithin name g.fuel x

/-- The names `compute_path` puts together, outermost first. -/
def pathNamesWithin (g : Graph) : Nat → NodeId → Result (List String)
  | 0, _ => .error .diverges
  | fuel + 1, x =>
    match g.parent x with
    | some p => do return (← pathNamesWithin g fuel p) ++ [g.name x]
    | none => .ok []

def computePath (g : Graph) (x : NodeId) : Result String := do
  return "/".intercalate ((← g.pathNamesWithin g.fuel x).map ("node_modules/" ++ ·))

/-- A node and everything below it in the order a recursion over `children` visits it. -/
def preorderWithin (g : Graph) : Nat → NodeId → Result (List NodeId)
  | 0, _ => .error .diverges
  | fuel + 1, x => do
    let below ← (g.childList x).mapM (preorderWithin g fuel)
    return x :: below.flatten

def preorder (g : Graph) (x : NodeId) : Result (List NodeId) := g.preorderWithin g.fuel x

end Graph

end FridaCore.Packages
