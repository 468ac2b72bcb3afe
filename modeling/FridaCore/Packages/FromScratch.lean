import FridaCore.Packages.Expanding

/-!
# Trees resolved from scratch

The tree of `build_tree_from_scratch` is closed if every copy of a package that
was not expanded is harmless and every hoist is safe. Neither is made sure of: a
copy that was not expanded and is in nobody's way stays as it is, and then finds
no provider, or one of a version that its dependency does not allow. A package that
is hoisted leaves the scope of its former siblings, and nothing checks that what it
found among them is still found from the new place.
-/

namespace FridaCore.Packages

open List Prod

open Semver

def Expansion.waiting (e : Expansion) : Finset NodeId :=
  (e.skipped.filter fun x => !(e.graph.neededDeps x).isEmpty).toFinset

theorem Expansion.mem_waiting {e : Expansion} :
    x ∈ e.waiting ↔ x ∈ e.skipped ∧ e.graph.neededDeps x ≠ [] := by
  simp [Expansion.waiting]

theorem Grown.tree (h : Grown ok g) :
    g.Tree := by
  refine ⟨⟨h.sourced.root, fun x k c _ hc => h.linked x k c hc⟩, fun x hx => ?_⟩
  induction hx using Forest.Reach.rec with
  | root => exact h.sourced.nonempty
  | child x k c _ hc _ => exact (h.sourced.child x k c hc).2

section
variable [UnicharTables] {env : Env} {manifest : Manifest} {ideal : Expansion}

theorem rootGraph_filled (manifest : Manifest) :
    Expansion.Filled rootId ((rootGraph manifest).neededDeps rootId)
      ⟨rootGraph manifest,
        ((rootGraph manifest).neededDeps rootId).map (DepQueueItem.mk rootId), ∅, []⟩ where
  top_lt := Nat.zero_lt_one
  reach x _ hlt := by
    rw [Nat.lt_one_iff.mp hlt]
    exact .root
  host i hi := by
    obtain ⟨d, -, rfl⟩ := mem_map.mp hi
    exact ⟨le_rfl, Nat.zero_lt_one, not_mem_nil⟩
  owed i hi := by
    obtain ⟨d, hd, rfl⟩ := mem_map.mp hi
    exact hd
  free i hi := by
    obtain ⟨d, -, rfl⟩ := List.mem_map.mp hi
    rw [rootGraph, Graph.child?_create]
    exact if_pos rfl
  nodup := by
    have hnames := (Graph.neededDeps_names_nodup (g := rootGraph manifest) (x := rootId)).map
      (f := Prod.mk rootId) fun _ _ heq => (Prod.mk.inj heq).2
    rwa [List.map_map] at hnames ⊢
  filled x _ hlt _ d hd := by
    have hroot : x = rootId := Nat.lt_one_iff.mp hlt
    rw [Graph.owed, if_pos hroot] at hd
    exact .inl (mem_map.mpr ⟨d, hd, by rw [hroot]⟩)
  skipped x hx := absurd hx not_mem_nil
  expanded url hurl := absurd hurl (Finset.notMem_empty url)
  copy x hx := absurd hx not_mem_nil

theorem buildIdealGraph_tree (henv : env.Honest)
    (hi : buildIdealGraph env turns manifest = .ok ideal) : ideal.graph.Tree :=
  (expandQueue_grown henv.admits (rootGraph_start manifest) hi).1.graph.tree

theorem buildIdealGraph_settled (henv : env.Honest)
    (hi : buildIdealGraph env turns manifest = .ok ideal)
    (hfree : ∀ x ∈ ideal.waiting, ideal.graph.Harmless x) :
    ideal.graph.Settled ideal.waiting := by
  have hroot : Grown (fun _ => True) (rootGraph manifest) := rootGraph_grown
  obtain ⟨hgrown, hext⟩ := expandQueue_grown henv.admits (rootGraph_start manifest) hi
  obtain ⟨hfilled, hempty⟩ := expandQueue_filled (rootGraph_filled manifest) henv
    (rootGraph_start manifest) hi
  have htree := hgrown.graph.tree
  refine ⟨htree, fun x v hx hne => hgrown.graph.sourced.node x hne (htree.bound x hx) v,
    fun x hx hw d hd => ?_, fun x hw _ => ?_, fun x hw _ => hfree x hw, fun x hw _ => ?_⟩
  · have hlt := htree.bound x hx
    have hs : x ∉ ideal.skipped := fun hs =>
      hw (Expansion.mem_waiting.mpr ⟨hs, ne_nil_of_mem hd⟩)
    have howed : d ∈ ideal.graph.owed rootId ((rootGraph manifest).neededDeps rootId) x := by
      rw [Graph.owed]
      split
      · rename_i heq
        rw [heq] at hd
        rwa [← hext.neededDeps_eq hroot.sourced.nonempty]
      · exact hd
    rcases hfilled.filled x (Nat.zero_le x) hlt hs d howed with hmem | ⟨c, hc, hok⟩
    · rw [hempty] at hmem
      cases hmem
    · exact ⟨x, c, .here hc, hok⟩
  · exact (hfilled.skipped x (Expansion.mem_waiting.mp hw).1).2.2
  · obtain ⟨y, htop, hlt, hs, hres⟩ := hfilled.copy x (Expansion.mem_waiting.mp hw).1
    exact ⟨y, hfilled.reach y htop.le hlt, Nat.ne_of_gt htop,
      fun hmem => hs (Expansion.mem_waiting.mp hmem).1, hres⟩

/-- Every tree resolved from scratch is closed, if the copies that were not
expanded are harmless and the hoists are safe. -/
theorem buildTreeFromScratch_closed (henv : env.Honest)
    (hi : buildIdealGraph env bounds.turns manifest = .ok ideal)
    (hfree : ∀ x ∈ ideal.waiting, ideal.graph.Harmless x)
    (hb : buildTreeFromScratch env bounds manifest = .ok result)
    (hsafe : SafeRun ideal.waiting result.hoists) : result.graph.Closed := by
  obtain ⟨ideal', hi', hb⟩ := bind_eq_ok hb
  rw [hi] at hi'
  cases hi'
  obtain ⟨⟨g, hoists⟩, hh, hb⟩ := bind_eq_ok hb
  cases hb
  obtain ⟨hsettled, hstuck⟩ := hoistGraph_settled (buildIdealGraph_settled henv hi hfree) hh hsafe
  exact hsettled.closed hstuck

end

/-- What a registry has for a range of a package: a version and its dependencies. -/
structure TableEntry where
  name : String
  range : String
  version : SemverVersion
  dependencies : List PackageDependency := []

def dependenciesOf (deps : List PackageDependency) : PackageDependencies := deps.foldl .add .none

def tableEnv (table : List TableEntry) : Env where
  fetch name range :=
    match table.find? fun e => e.name = name ∧ e.range = range with
    | some e => .ok {
        name
        effectiveVersion := e.version
        dependencies := dependenciesOf e.dependencies
        resolvedUrl := name ++ "-" ++ e.version.str ++ ".tgz"
        optionalPeers := some [] }
    | none => .error .crash
  fetch_name name range data h := by
    split at h
    · cases h
      rfl
    · cases h
  hashOrder := id
  hashOrder_perm := List.Perm.refl

theorem tableEnv_honest [UnicharTables]
    (h : ∀ e ∈ table, parseVersion e.version.str = .ok e.version ∧
      satisfiesRange e.version e.range = .ok true) : (tableEnv table).Honest := by
  have hentry : ∀ name range data, (tableEnv table).fetch name range = .ok data →
      ∃ e ∈ table, e.range = range ∧ data.effectiveVersion = e.version := by
    intro name range data hf
    simp only [tableEnv] at hf
    split at hf
    · rename_i e he
      cases hf
      have hname := find?_some he
      simp only [decide_eq_true_eq] at hname
      exact ⟨e, mem_of_find?_eq_some he, hname.2, rfl⟩
    · cases hf
  refine ⟨fun name range data hf => ?_, fun name range data hf => ?_⟩
  · obtain ⟨e, he, -, hversion⟩ := hentry name range data hf
    exact hversion ▸ ⟨_, (h e he).1⟩
  · obtain ⟨e, he, rfl, hversion⟩ := hentry name range data hf
    exact hversion ▸ (h e he).2

def v1 : SemverVersion := ⟨1, 0, 0, none, none⟩
def v2 : SemverVersion := ⟨2, 0, 0, none, none⟩

/-- A package below a parent, which is planted before it. -/
structure Seedling where
  parent : NodeId
  name : String
  version : SemverVersion
  dependencies : List PackageDependency := []

/-- The root and below it the given packages, numbered from 1. -/
def plant (deps : List PackageDependency) (seedlings : List Seedling) : Graph :=
  seedlings.foldl (fun g s => (addChildNode g s.parent ⟨s.name, "", .runtime⟩ {
      name := s.name
      effectiveVersion := s.version
      dependencies := dependenciesOf s.dependencies
      resolvedUrl := "" }).1)
    (rootGraph { dependencies := dependenciesOf deps })

/-- `a` and `b` both need `c`, which needs `d`. -/
def sharedTable : List TableEntry :=
  [⟨"a", "*", v1, [⟨"c", "^1.0.0", .runtime⟩]⟩, ⟨"b", "*", v1, [⟨"c", "^1.0.0", .runtime⟩]⟩,
    ⟨"c", "^1.0.0", v1, [⟨"d", "^1.0.0", .runtime⟩]⟩, ⟨"d", "^1.0.0", v1, []⟩]

def sharedManifest : Manifest where
  dependencies := dependenciesOf [⟨"a", "*", .runtime⟩, ⟨"b", "*", .runtime⟩]

/-- Here there are newer versions of `c` and `d`. -/
def conflictTable : List TableEntry :=
  [⟨"a", "*", v1, [⟨"c", "^1.0.0", .runtime⟩]⟩, ⟨"b", "*", v1, [⟨"c", "^1.0.0", .runtime⟩]⟩,
    ⟨"c", "^1.0.0", v1, [⟨"d", "^1.0.0", .runtime⟩]⟩, ⟨"c", "^2.0.0", v2, []⟩,
    ⟨"d", "^1.0.0", v1, []⟩, ⟨"d", "^2.0.0", v2, []⟩]

def Graph.Alike (g : Graph) (y x : NodeId) : Prop :=
  g.name y = g.name x ∧ (g.node y).version = (g.node x).version ∧
    (g.node y).resolved = (g.node x).resolved ∧ (g.activeDeps y).values = (g.activeDeps x).values

instance (g : Graph) (y x : NodeId) : Decidable (g.Alike y x) :=
  inferInstanceAs (Decidable (_ ∧ _ ∧ _ ∧ _))

/-- Nobody in the tree has peers, and those of one name or from one tarball are the same. -/
@[mk_iff] structure Graph.Uniform (g : Graph) : Prop where
  peerless : ∀ y < g.size, (g.node y).dependencies.withRole .peer = [] ∧
    ∀ d ∈ (g.activeDeps y).values, d.role ≠ .peer
  same : ∀ y < g.size, ∀ x < g.size, y ≠ rootId →
    g.name y = g.name x ∨ (g.node y).resolved = (g.node x).resolved → g.Alike y x

instance (g : Graph) : Decidable g.Uniform := decidable_of_iff' _ (Graph.uniform_iff g)

theorem Graph.Tree.harmless [UnicharTables] {g : Graph} (h : g.Tree) (hu : g.Uniform)
    (hx : x < g.size) : g.Harmless x := by
  obtain ⟨hpeers, hsame⟩ := hu
  refine ⟨fun y hy hroot heq => ?_, .inl ⟨fun y z hy hz hy₀ hz₀ hky hkz => ?_, fun y hy _ _ => ?_,
    fun y hy d hd hrole => ?_⟩⟩
  · exact hsame y (h.bound y hy) x hx hroot (heq.imp_left And.left)
  · have hyx := hsame y (h.bound y hy) x hx hy₀ (.inl hky)
    have hzx := hsame z (h.bound z hz) x hx hz₀ (.inl hkz)
    exact hyx.2.1.trans hzx.2.1.symm
  · exact (hpeers y (h.bound y hy)).1
  · exact absurd hrole ((hpeers y (h.bound y hy)).2 d hd)

/-- The second copy of `c` waits for `d`: `c` is moved to the root, and the second copy merged
with it. -/
theorem buildTreeFromScratch_closed_shared : ∃ ideal result,
    buildIdealGraph (tableEnv sharedTable) 9 sharedManifest = .ok ideal ∧ ideal.waiting = {4} ∧
    @buildTreeFromScratch asciiTables (tableEnv sharedTable) ⟨9, 3⟩ sharedManifest = .ok result ∧
    result.hoists.map (·.hoist) = [.move 3 1 0, .merge 4 3 2, .move 5 3 0] ∧
    @Graph.Closed asciiTables result.graph := by
  let _ := asciiTables
  have hrun : (do
      let ideal ← buildIdealGraph (tableEnv sharedTable) 9 sharedManifest
      let result ← buildTreeFromScratch (tableEnv sharedTable) ⟨9, 3⟩ sharedManifest
      return (ideal.waiting, ideal.graph.size, decide ideal.graph.Uniform,
        result.hoists.map (·.hoist), decide (SafeRun ideal.waiting result.hoists)) : Result _) =
      .ok ({4}, 6, true, [.move 3 1 0, .merge 4 3 2, .move 5 3 0], true) := by
    decide +kernel
  obtain ⟨ideal, hi, hrun⟩ := bind_eq_ok hrun
  obtain ⟨result, hb, hrun⟩ := bind_eq_ok hrun
  simp only [pure, Except.pure, Except.ok.injEq, mk.injEq, decide_eq_true_eq] at hrun
  obtain ⟨hwaiting, hsize, huniform, hhoists, hsafe⟩ := hrun
  have henv : (tableEnv sharedTable).Honest := tableEnv_honest (by decide +kernel)
  refine ⟨ideal, result, hi, hwaiting, hb, hhoists,
    buildTreeFromScratch_closed henv hi (fun x hx => ?_) hb hsafe⟩
  rw [hwaiting, Finset.mem_singleton] at hx
  exact (buildIdealGraph_tree henv hi).harmless huniform (by rw [hx, hsize]; decide)

/-- The second copy of `c` is not expanded and, with another version of `c` at the
root, not merged either: the `d` it finds is the one at the root. -/
theorem secondCopy_unmet : @Env.Honest asciiTables (tableEnv conflictTable) ∧ ∃ result,
    @buildTreeFromScratch asciiTables (tableEnv conflictTable) ⟨10, 2⟩
      { dependencies := dependenciesOf [⟨"a", "*", .runtime⟩, ⟨"b", "*", .runtime⟩,
        ⟨"c", "^2.0.0", .runtime⟩, ⟨"d", "^2.0.0", .runtime⟩] } = .ok result ∧
    result.graph.computePath 6 = .ok "node_modules/b/node_modules/c" ∧
    (result.graph.activeDeps 6).get? "d" = some ⟨"d", "^1.0.0", .runtime⟩ ∧
    result.graph.findProvider 6 "d" = .ok (some 4) ∧
    (result.graph.node 4).version = some v2 ∧
    ¬ @Graph.Closed asciiTables result.graph := by
  let _ := asciiTables
  refine ⟨tableEnv_honest (by decide +kernel), ?_⟩
  have hrun : (do
      let result ← buildTreeFromScratch (tableEnv conflictTable) ⟨10, 2⟩
        { dependencies := dependenciesOf [⟨"a", "*", .runtime⟩, ⟨"b", "*", .runtime⟩,
          ⟨"c", "^2.0.0", .runtime⟩, ⟨"d", "^2.0.0", .runtime⟩] }
      return (← result.graph.computePath 6, ← result.graph.findProvider 6 "d",
        decide ((result.graph.activeDeps 6).get? "d" = some ⟨"d", "^1.0.0", .runtime⟩ ∧
          (result.graph.node 4).version = some v2 ∧
          result.graph.child? rootId "b" = some 2 ∧ result.graph.child? 2 "c" = some 6),
        result.graph.provides 6 ⟨"d", "^1.0.0", .runtime⟩) : Result _) =
      .ok ("node_modules/b/node_modules/c", some 4, true, false) := by
    decide +kernel
  obtain ⟨result, hb, hrun⟩ := bind_eq_ok hrun
  obtain ⟨path, hpath, hrun⟩ := bind_eq_ok hrun
  obtain ⟨provider, hprovider, hrun⟩ := bind_eq_ok hrun
  simp only [pure, Except.pure, Except.ok.injEq, mk.injEq, decide_eq_true_eq] at hrun
  obtain ⟨rfl, rfl, ⟨hdep, hversion, hb', hc⟩, hprovides⟩ := hrun
  refine ⟨result, hb, hpath, hdep, hprovider, hversion, fun hclosed => ?_⟩
  have hreach : result.graph.Reach 6 := (Forest.Reach.root.child hb').child hc
  have hmem := (PackageDependencies.mem_values_of_get? hdep).1
  rw [hclosed 6 hreach _ (Graph.mem_neededDeps.mpr ⟨hmem, by decide⟩)] at hprovides
  cases hprovides

namespace Graph

variable {g : Graph} [UnicharTables]

theorem closed_of_forall (h : g.Tree)
    (hclosed : ∀ x < g.size, ∀ d ∈ g.neededDeps x, g.provides x d = true) : g.Closed :=
  fun x hx => hclosed x (h.bound x hx)

/-- The versions in the tree are from the version parser. -/
def Versioned (g : Graph) : Prop :=
  ∀ x v, g.Reach x → x ≠ rootId → (g.node x).version = some v → Parsed v

theorem settled_of_closed (h : g.Tree) (hv : g.Versioned) (hc : g.Closed) : g.Settled ∅ where
  tree := h
  parsed := hv
  served x hx _ d hd := serves_of_provides (hc x hx d hd)
  childless _ hx := absurd hx (Finset.notMem_empty _)
  harmless _ hx := absurd hx (Finset.notMem_empty _)
  copy _ hx := absurd hx (Finset.notMem_empty _)

end Graph

theorem hoistGraph_closed [UnicharTables] (h : g.Tree) (hv : g.Versioned) (hc : g.Closed)
    (hh : hoistGraph passes g rootId = .ok (g', steps)) (hsafe : SafeRun ∅ steps) :
    g'.Closed := by
  obtain ⟨hsettled, hstuck⟩ := hoistGraph_settled (Graph.settled_of_closed h hv hc) hh hsafe
  exact hsettled.closed hstuck

/-- `a` has the `b` it needs below it. -/
def nested : Graph :=
  plant [⟨"a", "*", .runtime⟩] [⟨0, "a", v1, [⟨"b", "*", .runtime⟩]⟩, ⟨1, "b", v1, []⟩]

theorem hoistGraph_closed_nested : ∃ g' steps,
    @hoistGraph asciiTables 2 nested rootId = .ok (g', steps) ∧
    steps.map (·.hoist) = [.move 2 1 0] ∧ @Graph.Closed asciiTables g' := by
  let _ := asciiTables
  have htree : nested.Tree := Graph.tree_of_children rfl (by decide +kernel) (by decide +kernel)
  have hv : nested.Versioned := by
    intro x v hx hne hv
    have hall : ∀ x < nested.size, x ≠ rootId → (nested.node x).version = some v1 := by
      decide +kernel
    rw [hall x (htree.bound x hx) hne] at hv
    exact ⟨"1.0.0", by rw [← Option.some.inj hv]; decide +kernel⟩
  have hrun : (do
      let r ← hoistGraph 2 nested rootId
      return (r.2.map (·.hoist), decide (SafeRun ∅ r.2)) : Result _) =
      .ok ([.move 2 1 0], true) := by
    decide +kernel
  obtain ⟨⟨g', steps⟩, hh, hrun⟩ := bind_eq_ok hrun
  simp only [pure, Except.pure, Except.ok.injEq, Prod.mk.injEq, decide_eq_true_eq] at hrun
  exact ⟨g', steps, hh, hrun.1, hoistGraph_closed htree hv
    (Graph.closed_of_forall htree (by decide +kernel)) hh hrun.2⟩

/-- `b` finds the newer `d` next to it below `a`; at the root there is an older one. -/
def siblings : Graph :=
  plant [⟨"a", "*", .runtime⟩, ⟨"d", "^1.0.0", .runtime⟩]
    [⟨0, "a", v1, [⟨"b", "*", .runtime⟩, ⟨"d", "^2.0.0", .runtime⟩]⟩, ⟨0, "d", v1, []⟩,
      ⟨1, "b", v1, [⟨"d", "^2.0.0", .runtime⟩]⟩, ⟨1, "d", v2, []⟩]

/-- `b` is moved to the root, where it finds the older `d`. -/
theorem siblings_parted : siblings.Tree ∧ @Graph.Closed asciiTables siblings ∧ ∃ g' steps,
    @hoistGraph asciiTables 2 siblings rootId = .ok (g', steps) ∧
    steps.map (·.hoist) = [.move 3 1 0] ∧ g'.findProvider 3 "d" = .ok (some 2) ∧
    ¬ @Graph.Closed asciiTables g' := by
  let _ := asciiTables
  have htree : siblings.Tree := Graph.tree_of_children rfl (by decide +kernel) (by decide +kernel)
  refine ⟨htree, Graph.closed_of_forall htree (by decide +kernel), ?_⟩
  have hrun : (do
      let r ← hoistGraph 2 siblings rootId
      return (r.2.map (·.hoist), ← r.1.findProvider 3 "d",
        decide (r.1.child? rootId "b" = some 3 ∧
          (r.1.activeDeps 3).get? "d" = some ⟨"d", "^2.0.0", .runtime⟩),
        r.1.provides 3 ⟨"d", "^2.0.0", .runtime⟩) : Result _) =
      .ok ([.move 3 1 0], some 2, true, false) := by
    decide +kernel
  obtain ⟨⟨g', steps⟩, hh, hrun⟩ := bind_eq_ok hrun
  obtain ⟨provider, hprovider, hrun⟩ := bind_eq_ok hrun
  simp only [pure, Except.pure, Except.ok.injEq, Prod.mk.injEq, decide_eq_true_eq] at hrun
  obtain ⟨hsteps, rfl, ⟨hchild, hdep⟩, hprovides⟩ := hrun
  refine ⟨g', steps, hh, hsteps, hprovider, fun hclosed => ?_⟩
  have hmem := (PackageDependencies.mem_values_of_get? hdep).1
  have hneeded := Graph.mem_neededDeps.mpr ⟨hmem, by decide⟩
  rw [hclosed 3 (Forest.Reach.root.child hchild) _ hneeded] at hprovides
  cases hprovides

end FridaCore.Packages
