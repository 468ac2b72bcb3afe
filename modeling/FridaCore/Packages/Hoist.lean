import FridaCore.Packages.Model

/-!
# Hoisting

`hoist_graph`: packages are moved towards the root pass by pass until a pass
leaves the tree as it is. `try_hoist` looks before it touches anything, so it is
split in two: which hoist is next, and what that hoist does to the graph. A pass
also returns the hoists it made, each with the graph it was made in.
-/

namespace FridaCore.Packages

open Semver

/-- What `try_hoist` can do with a node. -/
inductive Hoist
  /-- An ancestor has the same version already, which takes over the children. -/
  | merge (node dupe parent : NodeId)
  /-- The node and the version at an ancestor change places. -/
  | swap (node dupe parent anc : NodeId)
  /-- No ancestor has a package of that name, so the node moves up one level. -/
  | move (node parent anc : NodeId)
  deriving DecidableEq, Repr

namespace Graph

section
variable [UnicharTables]

def allUp (g : Graph) (check : NodeId → Result Bool) : Nat → NodeId → Result Bool
  | 0, _ => .error .diverges
  | fuel + 1, a => do
    if !(← check a) then return false
    match g.parent a with
    | some p => allUp g check fuel p
    | none => return true

def findDupe (g : Graph) (name : String) : Nat → NodeId → Result (Option (NodeId × NodeId))
  | 0, _ => .error .diverges
  | fuel + 1, anc =>
    match g.child? anc name with
    | some dupe => .ok (some (anc, dupe))
    | none =>
      match g.parent anc with
      | some p => findDupe g name fuel p
      | none => .ok none

def satisfiesAncestor (g : Graph) (node anc : NodeId) : Result Bool :=
  match (g.activeDeps anc).get? (g.name node) with
  | none => .ok true
  | some need => do satisfiesRange (← g.version node) need.range

def satisfiesAllAncestors (g : Graph) (node ancOrHigher : NodeId) : Result Bool :=
  g.allUp (g.satisfiesAncestor node) g.fuel ancOrHigher

/-- A sibling that needs the name keeps its own child of that name, if it has one. -/
def satisfiesSibling (g : Graph) (node sib : NodeId) : Result Bool :=
  if sib = node then .ok true
  else match (g.activeDeps sib).get? (g.name node) with
    | none => .ok true
    | some edge => do
      satisfiesRange (← g.version ((g.child? sib (g.name node)).getD node)) edge.range

def satisfiesAllAncestorSiblings (g : Graph) (node ancOrHigher : NodeId) : Result Bool :=
  g.allUp (fun a => (g.childList a).allM (g.satisfiesSibling node)) g.fuel ancOrHigher

def ancestorSatisfiesDependencies (g : Graph) (anc : NodeId) (deps : List PackageDependency) :
    Result Bool :=
  deps.allM fun d => do
    match ← g.findProvider anc d.name with
    | none => return false
    | some provider => satisfiesRange (← g.version provider) d.range

/-- A sibling other than the parent needs the node's version and not the one there. -/
def dupeBreaksReq (g : Graph) (node dupe parent anc : NodeId) : Result Bool :=
  (g.childList anc).anyM fun sib => do
    if sib = parent then return false
    match (g.activeDeps sib).get? (g.name node) with
    | none => return false
    | some edge =>
      if ← satisfiesRange (← g.version dupe) edge.range then return false
      else satisfiesRange (← g.version node) edge.range

/-- The checks of `try_hoist`. -/
def nextHoist (g : Graph) (node : NodeId) : Result (Option Hoist) := do
  match g.parent node with
  | none => return none
  | some parent =>
    match g.parent parent with
    | none => return none
    | some grand =>
      match ← g.findDupe (g.name node) g.fuel grand with
      | some (anc, dupe) =>
        if (← g.version dupe).str = (← g.version node).str then
          if ← g.satisfiesAllAncestorSiblings node anc then return some (.merge node dupe parent)
          else return none
        else if !(← g.dupeBreaksReq node dupe parent anc) then return none
        else if !(← g.satisfiesAllAncestors node anc) then return none
        else if !(← g.satisfiesAllAncestorSiblings node anc) then return none
        else return some (.swap node dupe parent anc)
      | none =>
        if !(← g.satisfiesAncestor node grand) then return none
        else if ← g.ancestorSatisfiesDependencies grand ((g.node node).dependencies.withRole .peer)
        then return some (.move node parent grand)
        else return none

end

/-- `merge_children`, for the children of the donor still to be looked at. -/
def adopt (target : NodeId) : Graph → List NodeId → Graph
  | g, [] => g
  | g, gc :: rest =>
    if (g.children target).contains (g.name gc) then adopt target g rest
    else adopt target ((g.setChild target (g.name gc) gc).setParent gc (some target)) rest

def mergeChildren (g : Graph) (target donor : NodeId) : Graph :=
  adopt target g (g.childList donor)

def apply (g : Graph) : Hoist → Graph
  | .merge node dupe parent =>
    ((g.mergeChildren dupe node).unsetChild parent (g.name node)).setParent node none
  | .swap node dupe parent anc =>
    (((g.setChild parent (g.name node) dupe).setParent dupe (some parent)).setChild anc
      (g.name node) node).setParent node (some anc)
  | .move node parent anc =>
    ((g.unsetChild parent (g.name node)).setChild anc (g.name node) node).setParent node (some anc)

end Graph

structure HoistStep where
  before : Graph
  hoist : Hoist

structure HoistPass where
  graph : Graph
  seen : Finset NodeId
  queue : List NodeId
  steps : List HoistStep := []

section
variable [UnicharTables]

/-- The loop of `try_hoist_any_package` over the children of one node. -/
def hoistChildren (pass : HoistPass) : List NodeId → Result HoistPass
  | [] => .ok pass
  | child :: rest => do
    let g := pass.graph
    let hoist ← g.nextHoist child
    let g' := (hoist.map g.apply).getD g
    let steps := pass.steps ++ (hoist.map (HoistStep.mk g)).toList
    if (g'.parent child).isSome ∧ child ∉ pass.seen then
      hoistChildren ⟨g', insert child pass.seen, pass.queue ++ [child], steps⟩ rest
    else hoistChildren { pass with graph := g', steps } rest

def hoistQueue : Nat → HoistPass → Result HoistPass
  | 0, _ => .error .diverges
  | fuel + 1, pass =>
    match pass.queue with
    | [] => .ok pass
    | n :: queue => do
      hoistQueue fuel (← hoistChildren { pass with queue } (pass.graph.childList n))

def tryHoistAnyPackage (g : Graph) (root : NodeId) : Result HoistPass :=
  hoistQueue (g.size + 2) ⟨g, {root}, [root], []⟩

/-- Passes until one hoists nothing; the number of passes is not bounded by the code. -/
def hoistGraph : Nat → Graph → NodeId → Result (Graph × List HoistStep)
  | 0, _, _ => .error .diverges
  | passes + 1, g, root => do
    let pass ← tryHoistAnyPackage g root
    if pass.steps.isEmpty then return (pass.graph, [])
    else
      let (g', steps) ← hoistGraph passes pass.graph root
      return (g', pass.steps ++ steps)

end

end FridaCore.Packages
