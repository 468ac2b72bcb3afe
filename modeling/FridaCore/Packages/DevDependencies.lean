import FridaCore.Packages.FromScratch
import FridaCore.Packages.PlanProvenance

/-!
# Development dependencies

Only the root goes by its development dependencies, as `active_deps` leaves out
those of a node that has a parent at the first read. The root of a subtree that
patches a hole is read before it has one.
-/

namespace FridaCore.Packages

open List Option

variable {g g' : Graph}

def NoDevelopment (deps : PackageDependencies) : Prop := ∀ d ∈ deps.values, d.role ≠ .development

/-- Nodes were added to the graph, and of them those that patch a hole have been
read already. -/
structure Patched (g g' : Graph) (steps : List PatchStep) : Prop where
  size : g.size ≤ g'.size
  node : ∀ x < g.size, g'.node x = g.node x
  cached : ∀ x < g'.size, (g'.node x).activeDepsCache ≠ none →
    x < g.size ∧ (g.node x).activeDepsCache ≠ none ∨ ∃ p ∈ steps, p.root = x
  root : ∀ p ∈ steps, p.root < g'.size ∧ g'.node p.root = p.subtree.graph.node p.root ∧
    (g'.node p.root).activeDepsCache = some (g'.node p.root).dependencies

theorem Patched.refl : Patched g g [] :=
  ⟨le_rfl, fun _ _ => rfl, fun _ hlt hx => .inl ⟨hlt, hx⟩, by simp⟩

theorem Patched.append (h : Patched g₁ g₂ l) (h' : Patched g₂ g₃ l') :
    Patched g₁ g₃ (l ++ l') where
  size := h.size.trans h'.size
  node x hx := (h'.node x (hx.trans_le h.size)).trans (h.node x hx)
  cached x hlt hx := by
    rcases h'.cached x hlt hx with ⟨hlt, hx⟩ | ⟨p, hp, rfl⟩
    · rcases h.cached x hlt hx with hx | ⟨p, hp, rfl⟩
      · exact .inl hx
      · exact .inr ⟨p, mem_append_left _ hp, rfl⟩
    · exact .inr ⟨p, mem_append_right _ hp, rfl⟩
  root p hp := by
    rcases mem_append.mp hp with hp | hp
    · obtain ⟨hlt, hnode, hcache⟩ := h.root p hp
      rw [h'.node _ hlt]
      exact ⟨hlt.trans_le h'.size, hnode, hcache⟩
    · exact h'.root p hp

theorem addChildNode_patched : Patched g (addChildNode g host dep data).1 [] := by
  refine ⟨Nat.le_succ _, addChildNode_extends.node, fun x hlt hx => .inl ?_, by simp⟩
  change ((g.create _).1.node x).activeDepsCache ≠ none at hx
  rw [Graph.node_create] at hx
  split at hx
  · exact absurd rfl hx
  · rename_i hne
    exact ⟨Nat.lt_of_le_of_ne (Nat.le_of_lt_succ hlt) hne, hx⟩

theorem expandQueue_patched (he : expandQueue fetch turns e = .ok e') :
    Patched e.graph e'.graph [] := by
  induction turns generalizing e with
  | zero => cases he
  | succ turns ih =>
    simp only [expandQueue] at he
    split at he
    · cases he
      exact .refl
    · obtain ⟨data, -, he⟩ := bind_eq_ok he
      exact Patched.append (expand_graph ▸ addChildNode_patched) (ih he)

theorem patchAnchor_patched (hp : patchAnchor env turns anchor g needed = .ok (g', steps)) :
    Patched g g' steps := by
  induction needed generalizing g steps with
  | nil =>
    cases hp
    exact .refl
  | cons m needed ih =>
    obtain ⟨⟨sub, root⟩, hb, hp⟩ := bind_eq_ok hp
    obtain ⟨⟨g₁, rest⟩, hrest, hp⟩ := bind_eq_ok hp
    cases hp
    obtain ⟨data, -, hb⟩ := bind_eq_ok hb
    obtain ⟨e, he, hb⟩ := bind_eq_ok hb
    cases hb
    have hsub : Patched (g.create data.toSubtreeRoot).1 sub.graph [] := expandQueue_patched he
    have hlt : g.size < (g.create data.toSubtreeRoot).1.size := Nat.lt_succ_self _
    have hnode : sub.graph.node g.size = data.toSubtreeRoot := by
      rw [hsub.node _ hlt]
      simp [Graph.node_create]
    refine Patched.append (l := [_]) ⟨?_, fun x hx => ?_, fun x hx hcache => ?_, ?_⟩
      (ih hrest)
    · exact hlt.le.trans hsub.size
    · exact (hsub.node x (hx.trans hlt)).trans (create_extends.node x hx)
    · by_cases hroot : x = g.size
      · exact .inr ⟨_, mem_singleton_self _, hroot.symm⟩
      · rcases hsub.cached x hx hcache with ⟨hx, hcache⟩ | ⟨p, hp, -⟩
        · rw [Graph.node_create, if_neg hroot] at hcache
          exact .inl ⟨Nat.lt_of_le_of_ne (Nat.le_of_lt_succ hx) hroot, hcache⟩
        · cases hp
    · refine forall_mem_singleton.mpr ⟨hlt.trans_le hsub.size, rfl, ?_⟩
      change (sub.graph.node g.size).activeDepsCache = some (sub.graph.node g.size).dependencies
      rw [hnode]
      rfl

theorem patchChunks_patched (hp : patchChunks env turns g chunks = .ok (g', steps)) :
    Patched g g' steps := by
  induction chunks generalizing g steps with
  | nil =>
    cases hp
    exact .refl
  | cons chunk chunks ih =>
    obtain ⟨⟨g₁, steps₁⟩, hfirst, hp⟩ := bind_eq_ok hp
    obtain ⟨⟨g₂, steps₂⟩, hrest, hp⟩ := bind_eq_ok hp
    cases hp
    exact (patchAnchor_patched hfirst).append (ih hrest)

theorem yankNodes_patched : Patched g (Graph.yankNodes toUnlock g xs anchors).1 [] := by
  induction xs generalizing g anchors with
  | nil => exact .refl
  | cons x xs ih =>
    simp only [Graph.yankNodes]
    split
    · exact ih
    · rename_i p _
      obtain ⟨hsize, hnode, hcached, hroot⟩ :=
        ih (g := (g.unsetChild p (g.name x)).setParent x none)
      exact ⟨hsize, hnode, hcached, hroot⟩

def SameNodes (g g' : Graph) : Prop := g'.node = g.node ∧ g'.size = g.size

theorem SameNodes.trans (h : SameNodes g₁ g₂) (h' : SameNodes g₂ g₃) : SameNodes g₁ g₃ :=
  ⟨h'.1.trans h.1, h'.2.trans h.2⟩

theorem sweepChildren_sameNodes
    (hsweep : ∀ g x o g' o', sweep g x o = .ok (g', o') → SameNodes g g')
    (hs : Graph.sweepChildren sweep x g cs o = .ok (g', o')) : SameNodes g g' := by
  induction cs generalizing g o with
  | nil =>
    cases hs
    exact ⟨rfl, rfl⟩
  | cons c cs ih =>
    simp only [Graph.sweepChildren] at hs
    split at hs
    · obtain ⟨⟨g₁, o₁⟩, h₁, hs⟩ := bind_eq_ok hs
      exact (hsweep _ _ _ _ _ h₁).trans (ih hs)
    · obtain ⟨id, -, hs⟩ := bind_eq_ok hs
      obtain ⟨path, -, hs⟩ := bind_eq_ok hs
      have hrest := ih hs
      exact hrest

theorem sweepUnreachablePackages_sameNodes
    (hs : Graph.sweepUnreachablePackages fuel g x o = .ok (g', o')) : SameNodes g g' := by
  induction fuel generalizing g x o g' o' with
  | zero => cases hs
  | succ fuel ih => exact sweepChildren_sameNodes (fun _ _ _ _ _ => ih) hs

theorem removeOrphanedPackages_sameNodes (hr : g.removeOrphanedPackages root = .ok (g', o)) :
    SameNodes g g' := by
  obtain ⟨g₁, hmark, hr⟩ := bind_eq_ok hr
  obtain ⟨⟨g₂, o₂⟩, hsweep, hr⟩ := bind_eq_ok hr
  obtain ⟨g₃, hreset, hr⟩ := bind_eq_ok hr
  cases hr
  obtain ⟨nodes, -, hreset⟩ := bind_eq_ok hreset
  cases hreset
  have hmarked : SameNodes g g₁ :=
    markQueue_keeps (P := SameNodes g) id (by exact ⟨rfl, rfl⟩) hmark
  have hswept := sweepUnreachablePackages_sameNodes hsweep
  exact hmarked.trans hswept

section
variable [UnicharTables]

theorem hoistGraph_sameNodes (hh : hoistGraph passes g root = .ok (g', steps)) :
    SameNodes g g' :=
  hoistGraph_keeps (P := SameNodes g) (fun h _ => h.trans ⟨Graph.node_apply, Graph.size_apply⟩)
    ⟨rfl, rfl⟩ hh

/-- The nodes of the tree are those of a graph without hoisting and removal. -/
theorem buildTree_patched (hb : buildTree env bounds manifest base = .ok result) :
    ∃ g, SameNodes g result.graph ∧
      Patched (base.getD (rootGraph manifest)) g result.patches := by
  cases base with
  | none =>
    obtain ⟨ideal, hideal, hb⟩ := bind_eq_ok hb
    obtain ⟨⟨g, hoists⟩, hhoist, hb⟩ := bind_eq_ok hb
    cases hb
    exact ⟨_, hoistGraph_sameNodes hhoist, expandQueue_patched hideal⟩
  | some base =>
    obtain ⟨toUnlock, -, hb⟩ := bind_eq_ok hb
    obtain ⟨⟨g₁, patches⟩, hpatch, hb⟩ := bind_eq_ok hb
    obtain ⟨⟨g₂, orphaned⟩, hremove, hb⟩ := bind_eq_ok hb
    obtain ⟨⟨g₃, hoists⟩, hhoist, hb⟩ := bind_eq_ok hb
    obtain ⟨trimmed, -, hb⟩ := bind_eq_ok hb
    cases hb
    obtain ⟨chunks, -, hpatch⟩ := bind_eq_ok hpatch
    refine ⟨g₁, ?_, yankNodes_patched.append (patchChunks_patched hpatch)⟩
    exact (removeOrphanedPackages_sameNodes hremove).trans (hoistGraph_sameNodes hhoist)

/-- In every tree of `build_tree`, the nodes with a parent go by none of their
development dependencies, unless one of them patches a hole and has some. -/
theorem buildTree_noDevelopment_iff
    (hbase : ∀ g, base = some g → ∃ m packages, lockToGraph m packages = .ok g)
    (hb : buildTree env bounds manifest base = .ok result) :
    (∀ x, (result.graph.parent x).isSome → NoDevelopment (result.graph.activeDeps x)) ↔
      ∀ p ∈ result.patches, (result.graph.parent p.root).isSome →
        NoDevelopment (p.subtree.graph.node p.root).dependencies := by
  obtain ⟨g, ⟨hnode, hsize⟩, h⟩ := buildTree_patched hb
  have hsourced : Sourced (fun _ => True) result.graph := by
    refine (buildTree_provenance ⟨by simp, by simp⟩ ?_ hb).1
    intro g hg
    obtain ⟨m, packages, hl⟩ := hbase g hg
    exact lockToGraph_grown (fun _ _ _ _ _ => ⟨by simp, by simp⟩) hl
  have hroot : ∀ p ∈ result.patches,
      result.graph.activeDeps p.root = (p.subtree.graph.node p.root).dependencies := by
    intro p hp
    obtain ⟨-, hsame, hcache⟩ := h.root p hp
    rw [hsame] at hcache
    simp only [Graph.activeDeps, hnode, hsame, hcache]
  constructor
  · intro hall p hp hparent
    exact hroot p hp ▸ hall p.root hparent
  · intro hpatches x hparent
    obtain ⟨q, hq⟩ := isSome_iff_exists.mp hparent
    obtain ⟨hne, hlt, -⟩ := hsourced.parent x q hq
    by_cases hcache : (g.node x).activeDepsCache = none
    · intro d hd
      simp only [Graph.activeDeps, hnode, hcache, isNone_eq_false_iff.mpr hparent] at hd
      simpa using (PackageDependencies.mem_values_filter.mp hd).2
    · rcases h.cached x (hsize ▸ hlt) hcache with ⟨hlt, hstart⟩ | ⟨p, hp, rfl⟩
      · refine absurd ?_ hstart
        cases base with
        | none => exact absurd (Nat.lt_one_iff.mp hlt) hne
        | some base =>
          obtain ⟨m, packages, hl⟩ := hbase base rfl
          have hgrown : Grown (·.activeDepsCache = none) base :=
            lockToGraph_grown (fun _ _ _ _ _ => ⟨fun _ _ => rfl, fun _ h => h⟩) hl
          exact hgrown.sourced.node x hne hlt
      · rw [hroot p hp]
        exact hpatches p hp hparent

end

/-- The manifest asks for `x`, and the lockfile has a `t` left over. -/
def leftoverManifest : Manifest where
  dependencies := dependenciesOf [⟨"x", "*", .runtime⟩]

def leftoverLock : List (String × PackageLockPackageInfo) :=
  [("node_modules/t", { version := some v1 })]

/-- The registry has an `x` with one dependency on `t`. -/
def toolTable (role : PackageRole) : List TableEntry := [⟨"x", "*", v1, [⟨"t", "*", role⟩]⟩]

def leftoverTree (role : PackageRole) : Result BuildTreeResult := do
  let base ← lockToGraph leftoverManifest leftoverLock
  @buildTree asciiTables (tableEnv (toolTable role)) ⟨3, 2⟩ leftoverManifest (some base)

/-- The tree that `x` was patched into goes by its development dependency, which
keeps `t`. -/
theorem leftover_kept : ∃ result, leftoverTree .development = .ok result ∧
    result.graph.parent 2 = some rootId ∧
    (result.graph.activeDeps 2).get? "t" = some ⟨"t", "*", .development⟩ ∧
    result.graph.child? rootId "t" = some 1 := by
  have hrun : (do
      let result ← leftoverTree .development
      return decide (result.graph.parent 2 = some rootId ∧
        (result.graph.activeDeps 2).get? "t" = some ⟨"t", "*", .development⟩ ∧
        result.graph.child? rootId "t" = some 1) : Result _) = .ok true := by
    decide +kernel
  obtain ⟨result, hb, hrun⟩ := bind_eq_ok hrun
  exact ⟨result, hb, of_decide_eq_true (Except.ok.inj hrun)⟩

theorem buildTree_noDevelopment_iff_peer : ∃ result, leftoverTree .peer = .ok result ∧
    ∀ x, (result.graph.parent x).isSome → NoDevelopment (result.graph.activeDeps x) := by
  have hrun : (do
      let result ← leftoverTree .peer
      return decide (∀ p ∈ result.patches,
        ∀ d ∈ (p.subtree.graph.node p.root).dependencies.values, d.role ≠ .development) :
      Result _) = .ok true := by
    decide +kernel
  obtain ⟨result, hb, hrun⟩ := bind_eq_ok hrun
  have hpatches := of_decide_eq_true (Except.ok.inj hrun)
  refine ⟨result, hb, ?_⟩
  obtain ⟨base, hbase, hb⟩ := bind_eq_ok hb
  refine (@buildTree_noDevelopment_iff asciiTables _ _ _ _ _ ?_ hb).mpr fun p hp _ => hpatches p hp
  intro g hg
  exact ⟨_, _, some.inj hg ▸ hbase⟩

end FridaCore.Packages
