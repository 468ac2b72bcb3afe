import FridaCore.Packages.SemverLaws
import FridaCore.Packages.Tree

/-!
# Closed trees

In a closed tree every package finds what it needs. Hoisting is careful about
some of the packages that may be affected and not about others, so whether the
tree stays closed depends on conditions that nothing checks: `SafeHoist` has them
for a hoist in the graph it is made in.

A copy of a package whose tarball has been expanded before has nothing below it
yet. Such a copy waits to be merged with the one that was expanded, and until
then the tree is closed but for what is waiting (`Settled`).
-/

namespace FridaCore.Packages

open Semver

section
variable [UnicharTables]

namespace Graph

def supplies (g : Graph) (c : NodeId) (d : PackageDependency) : Bool :=
  match (g.node c).version with
  | some v => satisfiesRange v d.range = .ok true
  | none => false

def provides (g : Graph) (x : NodeId) (d : PackageDependency) : Bool :=
  match g.findProvider x d.name with
  | .ok (some c) => g.supplies c d
  | _ => false

/-- Every dependency that has to be met, of every package in the tree, is met by
the provider found for it. -/
def Closed (g : Graph) : Prop := ∀ x, g.Reach x → ∀ d ∈ g.neededDeps x, g.provides x d = true

end Graph

end

namespace Graph

def visitsWithin (g : Graph) (k : String) (z : NodeId) : Nat → NodeId → Bool
  | 0, _ => false
  | fuel + 1, y =>
    y = z || (g.child? y k).isNone && match g.parent y with
      | some p => visitsWithin g k z fuel p
      | none => false

/-- A lookup that starts at `y` comes by `z`. -/
def visits (g : Graph) (k : String) (z y : NodeId) : Bool := g.visitsWithin k z g.fuel y

def leaves (g : Graph) (k : String) (z y : NodeId) : Bool :=
  g.visits k z y && (g.child? z k).isNone

def aboveWithin (g : Graph) (a : NodeId) : Nat → NodeId → Bool
  | 0, _ => false
  | fuel + 1, y =>
    y = a || match g.parent y with
      | some p => aboveWithin g a fuel p
      | none => false

/-- `a` is `y` or an ancestor of it. -/
def above (g : Graph) (a y : NodeId) : Bool := g.aboveWithin a g.fuel y

end Graph

/-- What waits to be merged after a hoist: a copy that has taken over the children
of one that was complete does not wait any longer. -/
def Hoist.waitingAfter (waiting : Finset NodeId) : Hoist → Finset NodeId
  | .merge node dupe _ => if node ∈ waiting then waiting else waiting.erase dupe
  | _ => waiting

/-- `P` holds of each dependency that has to be met, unless the package is waiting. -/
def EachNeed (waiting : Finset NodeId) (g : Graph) (P : NodeId → PackageDependency → Prop) : Prop :=
  ∀ y < g.size, y ∉ waiting → ∀ d ∈ g.neededDeps y, P y d

instance EachNeed.decidable (waiting : Finset NodeId) (g : Graph)
    (P : NodeId → PackageDependency → Prop) [∀ y d, Decidable (P y d)] :
    Decidable (EachNeed waiting g P) :=
  inferInstanceAs (Decidable (∀ y < g.size, y ∉ waiting → ∀ d ∈ g.neededDeps y, P y d))

theorem EachNeed.apply (hP : EachNeed waiting g P) (h : g.Tree) (hy : g.Reach y) (hw : y ∉ waiting)
    (hd : d ∈ g.neededDeps y) : P y d :=
  hP y (h.bound y hy) hw d hd

section
variable [UnicharTables]

@[mk_iff] structure SafeMove (waiting : Finset NodeId) (g : Graph) (node anc : NodeId) : Prop where
  left : EachNeed waiting g fun y d => d.name ≠ g.name node → g.leaves d.name node y →
    g.provides anc d

/-- Neither is the dupe above the node, nor do the two let anyone down: those who
find one of them can do with the other, and lookups that leave them are met from
their new parents. -/
@[mk_iff] structure SafeSwap (waiting : Finset NodeId) (g : Graph)
    (node dupe parent anc : NodeId) : Prop where
  apart : g.above dupe parent = false
  foundNode : EachNeed waiting g fun y d => d.name = g.name node →
    g.findProvider y d.name = .ok (some node) → g.supplies dupe d
  foundDupe : EachNeed waiting g fun y d => d.name = g.name node →
    g.findProvider y d.name = .ok (some dupe) → g.supplies node d
  leftNode : EachNeed waiting g fun y d => d.name ≠ g.name node → g.leaves d.name node y →
    g.provides anc d
  leftDupe : EachNeed waiting g fun y d => d.name ≠ g.name node → g.leaves d.name dupe y →
    g.provides parent d

def Graph.adopts (g : Graph) (node dupe c : NodeId) : Bool :=
  g.child? node (g.name c) = some c ∧ g.child? dupe (g.name c) = none

/-- With the node taken out, a lookup comes by the dupe or leaves a child it takes over. -/
def Graph.joins (g : Graph) (node dupe parent : NodeId) (k : String) (y : NodeId) : Bool :=
  let g' := g.unsetChild parent (g.name node)
  g'.visits k dupe y || (g.childList node).any fun c =>
    g.adopts node dupe c && (g.child? c k).isNone && g'.visits k c y

/-- The requirement is met by a child of the dupe, by a child it takes over, or
from further up. -/
def Graph.mergedProvides (g : Graph) (node dupe parent : NodeId) (d : PackageDependency) : Bool :=
  let child := if dupe = parent ∧ d.name = g.name node then none
    else (g.child? dupe d.name).or (g.child? node d.name)
  match child, g.parent dupe with
  | some c, _ => g.supplies c d
  | none, some anc => g.provides anc d
  | none, none => false

/-- A requirement whose lookup then comes by the dupe is met there, and no copy of
what is still waiting is dropped with the node. -/
@[mk_iff] structure SafeMerge (waiting : Finset NodeId) (g : Graph)
    (node dupe parent : NodeId) : Prop where
  joined : EachNeed ((Hoist.merge node dupe parent).waitingAfter waiting) g fun y d =>
    g.joins node dupe parent d.name y → g.mergedProvides node dupe parent d
  dropped : ∀ c ∈ g.childList node, (g.child? dupe (g.name c)).isSome →
    ∀ y < g.size, g.above c y → ∀ x ∈ waiting, (g.node x).resolved ≠ (g.node y).resolved

def SafeHoist (waiting : Finset NodeId) (g : Graph) : Hoist → Prop
  | .move node _ anc => SafeMove waiting g node anc
  | .swap node dupe parent anc => SafeSwap waiting g node dupe parent anc
  | .merge node dupe parent => SafeMerge waiting g node dupe parent

def SafeRun : Finset NodeId → List HoistStep → Prop
  | _, [] => True
  | waiting, step :: steps =>
    SafeHoist waiting step.before step.hoist ∧ SafeRun (step.hoist.waitingAfter waiting) steps

instance SafeHoist.decidable (waiting : Finset NodeId) (g : Graph) :
    (hoist : Hoist) → Decidable (SafeHoist waiting g hoist)
  | .move node _ anc => decidable_of_iff' _ (safeMove_iff waiting g node anc)
  | .swap node dupe parent anc => decidable_of_iff' _ (safeSwap_iff waiting g node dupe parent anc)
  | .merge node dupe parent => decidable_of_iff' _ (safeMerge_iff waiting g node dupe parent)

instance SafeRun.decidable :
    (waiting : Finset NodeId) → (steps : List HoistStep) → Decidable (SafeRun waiting steps)
  | _, [] => .isTrue trivial
  | waiting, step :: steps =>
    have := SafeRun.decidable (step.hoist.waitingAfter waiting) steps
    inferInstanceAs (Decidable (_ ∧ _))

namespace Graph

/-- The packages of that name in the tree are all in one version, without peers,
and suit all those they are a peer of. -/
structure Undisputed (g : Graph) (k : String) : Prop where
  version : ∀ y z, g.Reach y → g.Reach z → y ≠ rootId → z ≠ rootId → g.name y = k → g.name z = k →
    (g.node y).version = (g.node z).version
  peerless : ∀ y, g.Reach y → y ≠ rootId → g.name y = k →
    (g.node y).dependencies.withRole .peer = []
  suits : ∀ y, g.Reach y → ∀ d ∈ (g.activeDeps y).values, d.role = .peer → d.name = k →
    ∀ z, g.Reach z → z ≠ rootId → g.name z = k → g.supplies z d = true

/-- Copies of the package are from the same tarball, and what is from that tarball
is a copy of the package. -/
def Consistent (g : Graph) (x : NodeId) : Prop :=
  ∀ y, g.Reach y → y ≠ rootId →
    g.name y = g.name x ∧ (g.node y).version = (g.node x).version ∨
      (g.node y).resolved = (g.node x).resolved →
    g.name y = g.name x ∧ (g.node y).version = (g.node x).version ∧
      (g.node y).resolved = (g.node x).resolved ∧
      (g.activeDeps y).values = (g.activeDeps x).values

/-- A copy that was not expanded will be merged, or finds what it needs at the root. -/
structure Harmless (g : Graph) (x : NodeId) : Prop where
  consistent : g.Consistent x
  undisputed : g.Undisputed (g.name x) ∨ ∀ d ∈ g.neededDeps x, g.Undisputed d.name

structure Settled (waiting : Finset NodeId) (g : Graph) : Prop where
  tree : g.Tree
  parsed : ∀ x v, g.Reach x → x ≠ rootId → (g.node x).version = some v → Parsed v
  served : ∀ x, g.Reach x → x ∉ waiting → ∀ d ∈ g.neededDeps x,
    g.forest.Serves (fun c => g.supplies c d) d.name x
  childless : ∀ x ∈ waiting, g.Reach x → ∀ k, g.child? x k = none
  harmless : ∀ x ∈ waiting, g.Reach x → g.Harmless x
  copy : ∀ x ∈ waiting, g.Reach x →
    ∃ y, g.Reach y ∧ y ≠ rootId ∧ y ∉ waiting ∧ (g.node y).resolved = (g.node x).resolved

end Graph

namespace Graph

variable {g g' : Graph} {x y z p q a c : NodeId} {d : PackageDependency} {k : String}
  {waiting : Finset NodeId}

theorem supplies_eq (hnode : g'.node = g.node) : g'.supplies c d = g.supplies c d := by
  simp only [supplies, hnode]

theorem provides_iff : g.provides x d = true ↔
    ∃ c, g.findProvider x d.name = .ok (some c) ∧ g.supplies c d = true := by
  unfold provides
  split
  · rename_i c hc
    simp [hc]
  · rename_i hno
    simp only [Bool.false_eq_true, false_iff, not_exists, not_and]
    intro c hc
    exact absurd hc (hno c)

theorem serves_of_provides (h : g.provides x d = true) :
    g.forest.Serves (fun c => g.supplies c d) d.name x := by
  obtain ⟨c, hfind, hc⟩ := provides_iff.mp h
  obtain ⟨a, hn⟩ := findProviderWithin_some hfind
  exact ⟨a, c, hn, hc⟩

theorem Tree.provides_of_serves (h : g.Tree) (hx : g.Reach x)
    (hs : g.forest.Serves (fun c => g.supplies c d) d.name x) : g.provides x d = true := by
  obtain ⟨a, c, hn, hc⟩ := hs
  exact provides_iff.mpr ⟨c, (h.findProvider_iff hx).mpr ⟨a, hn⟩, hc⟩

omit [UnicharTables]

theorem visitsWithin_of_visits (h : g.Tree) (hparent : g'.parent = g.parent)
    (hy : g.forest.At rootId y n) (hn : n < m) (hv : g'.forest.Visits k z y) :
    g'.visitsWithin k z m y = true := by
  induction hv generalizing n m with
  | here =>
    obtain ⟨m, rfl⟩ := Nat.exists_eq_add_of_lt (Nat.zero_lt_of_lt hn)
    simp [visitsWithin]
  | @up y p hc hp _ ih =>
    have hc : g'.child? y k = none := hc
    have hp : g'.parent y = some p := hp
    obtain ⟨l, rfl, hl, -⟩ := h.rooted.at_parent hy (hparent ▸ hp)
    obtain ⟨m, rfl⟩ := Nat.exists_eq_add_of_lt (Nat.zero_lt_of_lt hn)
    simp only [Nat.zero_add, visitsWithin, hc, hp, ih hl (show l < m by omega)]
    simp

theorem Tree.visits_of_visits (h : g.Tree) (hparent : g'.parent = g.parent)
    (hsize : g'.size = g.size) (hy : g.Reach y) (hv : g'.forest.Visits k z y) :
    g'.visits k z y = true := by
  obtain ⟨n, hy⟩ := hy
  refine visitsWithin_of_visits h hparent hy ?_ hv
  rw [fuel, hsize]
  exact (h.at_lt hy).trans (Nat.lt_succ_self _)

theorem Tree.leaves_of_visits (h : g.Tree) (hy : g.Reach y) (hv : g.forest.Visits k z y)
    (hz : g.child? z k = none) : g.leaves k z y = true := by
  simp [leaves, h.visits_of_visits rfl rfl hy hv, hz]

theorem aboveWithin_of_above (h : g.Tree) (hy : g.forest.At rootId y n) (hn : n < m)
    (ha : g.forest.Above a y) : g.aboveWithin a m y = true := by
  induction ha generalizing n m with
  | refl =>
    obtain ⟨m, rfl⟩ := Nat.exists_eq_add_of_lt (Nat.zero_lt_of_lt hn)
    simp [aboveWithin]
  | @up y p hp _ ih =>
    have hp : g.parent y = some p := hp
    obtain ⟨l, rfl, hl, -⟩ := h.rooted.at_parent hy hp
    obtain ⟨m, rfl⟩ := Nat.exists_eq_add_of_lt (Nat.zero_lt_of_lt hn)
    simp only [Nat.zero_add, aboveWithin, hp, ih hl (show l < m by omega)]
    simp

theorem Tree.above_of_above (h : g.Tree) (hy : g.Reach y) (ha : g.forest.Above a y) :
    g.above a y = true := by
  obtain ⟨n, hy⟩ := hy
  exact aboveWithin_of_above h hy ((h.at_lt hy).trans (Nat.lt_succ_self _)) ha

end Graph

end

end FridaCore.Packages
