import FridaCore.Packages.Hoist

/-!
# Resolving a manifest into a tree

`build_tree` and the passes it runs: from scratch the ideal graph is expanded
breadth first and hoisted; from a locked tree the packages that have to change
are taken out, the holes patched, and what is no longer needed removed before
hoisting. The registry is the function behind `PackageDataCache.fetch`.
-/

namespace FridaCore.Packages

open Semver

/-- The outside world of a resolution: the registry, and the order in which a
hash set of nodes is iterated over. -/
structure Env where
  fetch : String → String → Result ResolvedPackageData
  fetch_name : ∀ name range data, fetch name range = .ok data → data.name = name
  hashOrder : List NodeId → List NodeId
  hashOrder_perm : ∀ l, (hashOrder l).Perm l

/-- `DepQueueItem` -/
structure DepQueueItem where
  host : NodeId
  dep : PackageDependency
  deriving DecidableEq, Repr

/-- The node `add_child_node` makes; the shasum, the bins and the install script
flag are not copied. -/
def ResolvedPackageData.toNode (data : ResolvedPackageData) (dep : PackageDependency) :
    PackageNode where
  name := some data.name
  version := some data.effectiveVersion
  dependencies := data.dependencies
  optionalPeers := data.optionalPeers
  isOptional := dep.role = .optional ∨ dep.name ∈ data.optionalPeers.getD []
  deprecated := data.deprecated
  license := data.license
  funding := data.funding
  engines := data.engines
  os := data.os
  cpu := data.cpu
  libc := data.libc
  resolved := some data.resolvedUrl
  integrity := data.integrity
  published := ⟨data.integrity, data.shasum⟩

def addChildNode (g : Graph) (host : NodeId) (dep : PackageDependency)
    (data : ResolvedPackageData) : Graph × NodeId :=
  let (g, n) := g.create (data.toNode dep)
  ((g.setChild host data.name n).setParent n (some host), n)

def Graph.neededDeps (g : Graph) (x : NodeId) : List PackageDependency :=
  (g.activeDeps x).values.filter (·.role ≠ .peer)

/-- Where an expansion is. `skipped` has the nodes that were not expanded because
their tarball had been expanded before. -/
structure Expansion where
  graph : Graph
  queue : List DepQueueItem
  expanded : Finset String := ∅
  skipped : List NodeId := []

def Expansion.expand (e : Expansion) (item : DepQueueItem) (queue : List DepQueueItem)
    (data : ResolvedPackageData) : Expansion :=
  let (g, n) := addChildNode e.graph item.host item.dep data
  if data.resolvedUrl ∈ e.expanded then
    { e with graph := g, queue, skipped := e.skipped ++ [n] }
  else
    { e with
      graph := g
      queue := queue ++ (g.neededDeps n).map (DepQueueItem.mk n)
      expanded := insert data.resolvedUrl e.expanded }

def expandQueue (fetch : String → String → Result ResolvedPackageData) :
    Nat → Expansion → Result Expansion
  | 0, _ => .error .diverges
  | turns + 1, e =>
    match e.queue with
    | [] => .ok e
    | item :: queue => do
      expandQueue fetch turns (e.expand item queue (← fetch item.dep.name item.dep.range))

def rootGraph (manifest : Manifest) : Graph :=
  (Graph.create {} {
    name := manifest.name
    version := manifest.version
    dependencies := manifest.dependencies }).1

def rootId : NodeId := 0

def buildIdealGraph (env : Env) (turns : Nat) (manifest : Manifest) : Result Expansion :=
  let g := rootGraph manifest
  expandQueue env.fetch turns ⟨g, (g.neededDeps rootId).map (DepQueueItem.mk rootId), ∅, []⟩

/-- Nothing sets the optional peers or the deprecation notice of such a node,
and its dependencies are read before it has a parent. -/
def ResolvedPackageData.toSubtreeRoot (data : ResolvedPackageData) : PackageNode where
  name := some data.name
  version := some data.effectiveVersion
  dependencies := data.dependencies
  license := data.license
  funding := data.funding
  engines := data.engines
  os := data.os
  cpu := data.cpu
  libc := data.libc
  resolved := some data.resolvedUrl
  integrity := data.integrity
  activeDepsCache := some data.dependencies
  published := ⟨data.integrity, data.shasum⟩

def buildIdealSubtree (env : Env) (turns : Nat) (g : Graph) (name spec : String) :
    Result (Expansion × NodeId) := do
  let data ← env.fetch name spec
  let (g, root) := g.create data.toSubtreeRoot
  let deps := (g.neededDeps root).filter (·.role ≠ .development)
  return (← expandQueue env.fetch turns ⟨g, deps.map (DepQueueItem.mk root), ∅, []⟩, root)

namespace Graph

def findDirectDependents (g : Graph) (target root : NodeId) : Result (List NodeId) := do
  return (← g.preorder root).filter fun x => (g.activeDeps x).contains (g.name target)

section
variable [UnicharTables]

def wouldBeSatisfied (newVersionRange range : String) : Result Bool :=
  match parseVersion newVersionRange with
  | .ok newVersion => satisfiesRange newVersion range
  | .error _ => .ok false

/-- The loop over the dependents of a target; `collect` is the recursive call. -/
def collectFrom (g : Graph) (collect : NodeId → String → List NodeId → Result (List NodeId))
    (target : NodeId) (newVersionRange : String) :
    List NodeId → List NodeId → Result (List NodeId)
  | [], toUnlock => .ok toUnlock
  | dependent :: rest, toUnlock => do
    if dependent ∈ toUnlock then collectFrom g collect target newVersionRange rest toUnlock
    else match (g.activeDeps dependent).get? (g.name target) with
      | none => collectFrom g collect target newVersionRange rest toUnlock
      | some requirement =>
        if ← wouldBeSatisfied newVersionRange requirement.range then
          collectFrom g collect target newVersionRange rest toUnlock
        else
          let toUnlock ← collect dependent requirement.range (toUnlock ++ [dependent])
          collectFrom g collect target newVersionRange rest toUnlock

def collectDependentPackages (g : Graph) (root : NodeId) :
    Nat → NodeId → String → List NodeId → Result (List NodeId)
  | 0, _, _, _ => .error .diverges
  | fuel + 1, target, newVersionRange, toUnlock => do
    g.collectFrom (g.collectDependentPackages root fuel) target newVersionRange
      (← g.findDirectDependents target root) toUnlock

def collectPackagesNeedingUnlock (g : Graph) (base : NodeId) :
    List PackageDependency → List NodeId → Result (List NodeId)
  | [], toUnlock => .ok toUnlock
  | dep :: deps, toUnlock => do
    match ← g.findProvider base dep.name with
    | none => g.collectPackagesNeedingUnlock base deps toUnlock
    | some existing =>
      if ← satisfiesRange (← g.version existing) dep.range then
        g.collectPackagesNeedingUnlock base deps toUnlock
      else
        let unlocked := if existing ∈ toUnlock then toUnlock else toUnlock ++ [existing]
        let toUnlock ← g.collectDependentPackages base g.fuel existing dep.range unlocked
        g.collectPackagesNeedingUnlock base deps toUnlock

end

/-- The loop of `selective_yank_nodes`, with the anchors so far. -/
def yankNodes (toUnlock : List NodeId) : Graph → List NodeId → List NodeId → Graph × List NodeId
  | g, [], anchors => (g, anchors)
  | g, x :: rest, anchors =>
    match g.parent x with
    | none => yankNodes toUnlock g rest anchors
    | some p =>
      yankNodes toUnlock ((g.unsetChild p (g.name x)).setParent x none) rest
        (if p ∈ toUnlock then anchors else anchors ++ [p])

def addMissing (g : Graph) (x : NodeId) :
    List PackageDependency → List (String × String) → Result (List (String × String))
  | [], missing => .ok missing
  | dep :: deps, missing => do
    match ← g.findProvider x dep.name with
    | none =>
      addMissing g x deps
        (if (missing.lookup dep.name).isSome then missing else missing ++ [(dep.name, dep.range)])
    | some _ => addMissing g x deps missing

def findMissingRanges (g : Graph) (anchor : NodeId) (manifest : Manifest) :
    Result (List (String × String)) :=
  g.addMissing anchor manifest.dependencies.values []

def findMissingDependenciesForSubtree (g : Graph) (anchor : NodeId) :
    Result (List (String × String)) := do
  (← g.preorder anchor).foldlM (fun missing x => g.addMissing x (g.activeDeps x).values missing) []

def neededBelow (g : Graph) (manifest : Manifest) (anchor : NodeId) :
    Result (List (String × String)) :=
  if (g.parent anchor).isNone then g.findMissingRanges anchor manifest
  else g.findMissingDependenciesForSubtree anchor

end Graph

/-- A hole that is patched: `skipped` as in the expansion of the subtree. -/
structure PatchStep where
  before : Graph
  anchor : NodeId
  name : String
  subtree : Expansion
  root : NodeId

def patchAnchor (env : Env) (turns : Nat) (anchor : NodeId) :
    Graph → List (String × String) → Result (Graph × List PatchStep)
  | g, [] => .ok (g, [])
  | g, (name, range) :: rest => do
    let (sub, root) ← buildIdealSubtree env turns g name range
    let g' := (sub.graph.setChild anchor name root).setParent root (some anchor)
    let (g'', steps) ← patchAnchor env turns anchor g' rest
    return (g'', ⟨g, anchor, name, sub, root⟩ :: steps)

def patchChunks (env : Env) (turns : Nat) :
    Graph → List (NodeId × List (String × String)) → Result (Graph × List PatchStep)
  | g, [] => .ok (g, [])
  | g, (anchor, needed) :: rest => do
    let (g, steps) ← patchAnchor env turns anchor g needed
    let (g, steps') ← patchChunks env turns g rest
    return (g, steps ++ steps')

/-- What is missing is found out for all anchors before the first is patched. -/
def patchHoles (env : Env) (turns : Nat) (g : Graph) (anchors : List NodeId) (manifest : Manifest) :
    Result (Graph × List PatchStep) := do
  patchChunks env turns g (← anchors.mapM fun a => return (a, ← g.neededBelow manifest a))

namespace Graph

/-- Marks the providers of a node's dependencies that are not marked yet, and
queues them. -/
def markProviders (x : NodeId) :
    Graph → List PackageDependency → List NodeId → Result (Graph × List NodeId)
  | g, [], queue => .ok (g, queue)
  | g, dep :: deps, queue => do
    match ← g.findProvider x dep.name with
    | none => markProviders x g deps queue
    | some provider =>
      if g.marked provider then markProviders x g deps queue
      else
        let g := { g with marked := Function.update g.marked provider true }
        markProviders x g deps (queue ++ [provider])

def markQueue : Nat → Graph → Finset NodeId → List NodeId → Result Graph
  | 0, _, _, _ => .error .diverges
  | _ + 1, g, _, [] => .ok g
  | fuel + 1, g, visited, x :: queue => do
    if x ∈ visited then markQueue fuel g visited queue
    else
      let (g, queue) ← markProviders x g (g.activeDeps x).values queue
      markQueue fuel g (insert x visited) queue

def markReachablePackages (g : Graph) (root : NodeId) : Result Graph :=
  markQueue (g.size + 2) { g with marked := Function.update g.marked root true } ∅ [root]

end Graph

structure Orphaned where
  packages : List String := []
  paths : List String := []
  deriving DecidableEq, Repr

namespace Graph

/-- `"%s@%s".printf (name, version.str)` -/
def packageId (g : Graph) (x : NodeId) : Result String := do
  return g.name x ++ "@" ++ (← g.version x).str

/-- The loop of `sweep_unreachable_packages` over the children of a node; `sweep`
is the recursive call. -/
def sweepChildren (sweep : Graph → NodeId → Orphaned → Result (Graph × Orphaned)) (node : NodeId) :
    Graph → List NodeId → Orphaned → Result (Graph × Orphaned)
  | g, [], o => .ok (g, o)
  | g, child :: rest, o => do
    if g.marked child then
      let (g, o) ← sweep g child o
      sweepChildren sweep node g rest o
    else
      let o := ⟨o.packages.insert (← g.packageId child), o.paths.insert (← g.computePath child)⟩
      sweepChildren sweep node ((g.unsetChild node (g.name child)).setParent child none) rest o

def sweepUnreachablePackages : Nat → Graph → NodeId → Orphaned → Result (Graph × Orphaned)
  | 0, _, _, _ => .error .diverges
  | fuel + 1, g, node, o =>
    sweepChildren (sweepUnreachablePackages fuel) node g (g.childList node) o

def resetMarks (g : Graph) (root : NodeId) : Result Graph := do
  let nodes ← g.preorder root
  return { g with marked := fun x => if x ∈ nodes then false else g.marked x }

def removeOrphanedPackages (g : Graph) (root : NodeId) : Result (Graph × Orphaned) := do
  let g ← g.markReachablePackages root
  let (g, orphaned) ← sweepUnreachablePackages g.fuel g root {}
  return (← g.resetMarks root, orphaned)

/-- The first node, in the order of the recursion, whose path is the one given. -/
def findPackageAtPath (g : Graph) (path : String) : List NodeId → Result (Option NodeId)
  | [] => .ok none
  | x :: rest => do
    if (← g.computePath x) = path then return some x
    else g.findPackageAtPath path rest

/-- The loop of `trim_orphaned_now_in_graph` over a copy of the paths. -/
def trimOrphaned (g : Graph) (nodes : List NodeId) : List String → Orphaned → Result Orphaned
  | [], o => .ok o
  | path :: rest, o => do
    match ← g.findPackageAtPath path nodes with
    | none => g.trimOrphaned nodes rest o
    | some current =>
      let id ← g.packageId current
      if id ∈ o.packages then
        g.trimOrphaned nodes rest ⟨o.packages.erase id, o.paths.erase path⟩
      else g.trimOrphaned nodes rest o

def trimOrphanedNowInGraph (g : Graph) (root : NodeId) (o : Orphaned) : Result Orphaned := do
  g.trimOrphaned (← g.preorder root) o.paths o

end Graph

/-- `BuildTreeResult`, with what happened on the way to it. -/
structure BuildTreeResult where
  graph : Graph
  orphans : List String := []
  skipped : List NodeId := []
  patches : List PatchStep := []
  hoists : List HoistStep := []

/-- Bounds on the loops the code does not bound: turns of one expansion, passes
of hoisting. -/
structure Bounds where
  turns : Nat
  passes : Nat

section
variable [UnicharTables]

def buildTreeFromScratch (env : Env) (bounds : Bounds) (manifest : Manifest) :
    Result BuildTreeResult := do
  let ideal ← buildIdealGraph env bounds.turns manifest
  let (graph, hoists) ← hoistGraph bounds.passes ideal.graph rootId
  return { graph, skipped := ideal.skipped, hoists }

def buildTreeFromBase (env : Env) (bounds : Bounds) (manifest : Manifest) (base : Graph) :
    Result BuildTreeResult := do
  let toUnlock ← base.collectPackagesNeedingUnlock rootId manifest.dependencies.values []
  let (g, anchors) := Graph.yankNodes toUnlock base (env.hashOrder toUnlock) []
  let anchors := if rootId ∈ anchors then anchors else anchors ++ [rootId]
  let (g, patches) ← patchHoles env bounds.turns g anchors manifest
  let (g, orphaned) ← g.removeOrphanedPackages rootId
  let (graph, hoists) ← hoistGraph bounds.passes g rootId
  let orphaned ← (if hoists.isEmpty then pure orphaned
    else graph.trimOrphanedNowInGraph rootId orphaned)
  return { graph, orphans := orphaned.paths, patches, hoists }

def buildTree (env : Env) (bounds : Bounds) (manifest : Manifest) :
    Option Graph → Result BuildTreeResult
  | none => buildTreeFromScratch env bounds manifest
  | some base => buildTreeFromBase env bounds manifest base

end

end FridaCore.Packages
