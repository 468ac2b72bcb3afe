import FridaCore.Packages.HoistRun
import FridaCore.Packages.Provenance

/-!
# Expansion of the ideal graph

The queue has what is still missing below the nodes that are expanded. When it is
empty, all of them have a child for each dependency that has to be met, and the
nodes that were skipped, which have no children, are copies of ones that were not.
-/

namespace FridaCore.Packages

open List Std.TreeMap

open Semver

/-- The registry only gives out versions it has parsed, and one that meets the
range asked for. -/
structure Env.Honest [UnicharTables] (env : Env) : Prop where
  parsed : ∀ name range data, env.fetch name range = .ok data → Parsed data.effectiveVersion
  satisfies : ∀ name range data, env.fetch name range = .ok data →
    satisfiesRange data.effectiveVersion range = .ok true

section
variable {g : Graph} {host x : NodeId} {dep : PackageDependency} {data : ResolvedPackageData}

theorem child?_addChildNode : (addChildNode g host dep data).1.child? x k =
    if x = host ∧ k = data.name then some g.size
    else if x = g.size then none else g.child? x k := by
  simp only [addChildNode, Graph.child?_setParent, Graph.child?_setChild, Graph.child?_create,
    Graph.create_snd]

theorem node_addChildNode_self :
    (addChildNode g host dep data).1.node g.size = data.toNode dep := by
  simp [addChildNode, Graph.node_create]

theorem Extends.activeDeps_eq (h : Extends g g') (hx : x < g.size) :
    g'.activeDeps x = g.activeDeps x := by
  simp only [Graph.activeDeps, h.node x hx, h.parent x hx]

theorem Extends.neededDeps_eq (h : Extends g g') (hx : x < g.size) :
    g'.neededDeps x = g.neededDeps x := by
  simp only [Graph.neededDeps, h.activeDeps_eq hx]

end

theorem PackageDependencies.values_names_nodup {deps : PackageDependencies} :
    (deps.values.map (·.name)).Nodup := by
  rw [PackageDependencies.values, map_map]
  refine pairwise_map.mpr (distinct_keys_toList.imp_of_mem ?_)
  rintro ⟨k, d⟩ ⟨k', d'⟩ hd hd' hne heq
  have hk := deps.named k d (mem_toList_iff_getElem?_eq_some.mp hd)
  have hk' := deps.named k' d' (mem_toList_iff_getElem?_eq_some.mp hd')
  simp only [Function.comp_apply] at heq
  exact hne (by simp [← hk, ← hk', heq])

theorem Graph.neededDeps_names_nodup {g : Graph} : ((g.neededDeps x).map (·.name)).Nodup :=
  (filter_sublist.map _).nodup PackageDependencies.values_names_nodup

/-- What an expansion that starts at `top` owes a node: `first` to `top`, and to
the others all that they need. -/
def Graph.owed (g : Graph) (top : NodeId) (first : List PackageDependency) (x : NodeId) :
    List PackageDependency :=
  if x = top then first else g.neededDeps x

structure Expansion.Filled [UnicharTables] (top : NodeId) (first : List PackageDependency)
    (e : Expansion) : Prop where
  top_lt : top < e.graph.size
  reach : ∀ x, top ≤ x → x < e.graph.size → e.graph.forest.Reach top x
  host : ∀ item ∈ e.queue, top ≤ item.host ∧ item.host < e.graph.size ∧ item.host ∉ e.skipped
  owed : ∀ item ∈ e.queue, item.dep ∈ e.graph.owed top first item.host
  free : ∀ item ∈ e.queue, e.graph.child? item.host item.dep.name = none
  nodup : (e.queue.map fun item => (item.host, item.dep.name)).Nodup
  filled : ∀ x, top ≤ x → x < e.graph.size → x ∉ e.skipped → ∀ d ∈ e.graph.owed top first x,
    ⟨x, d⟩ ∈ e.queue ∨ ∃ c, e.graph.child? x d.name = some c ∧ e.graph.supplies c d = true
  skipped : ∀ x ∈ e.skipped, top < x ∧ x < e.graph.size ∧ ∀ k, e.graph.child? x k = none
  expanded : ∀ url ∈ e.expanded, ∃ y, top < y ∧ y < e.graph.size ∧ y ∉ e.skipped ∧
    (e.graph.node y).resolved = some url
  copy : ∀ x ∈ e.skipped, ∃ y, top < y ∧ y < e.graph.size ∧ y ∉ e.skipped ∧
    (e.graph.node y).resolved = (e.graph.node x).resolved

section
variable [UnicharTables] {env : Env} {names : Set String} {ok : PackageNode → Prop}
  {e e' : Expansion} {top : NodeId} {first : List PackageDependency} {item : DepQueueItem}
  {rest : List DepQueueItem} {data : ResolvedPackageData}

structure Expansion.Added (e : Expansion) (item : DepQueueItem) (data : ResolvedPackageData)
    (g' : Graph) : Prop where
  size : g'.size = e.graph.size + 1
  extend : Extends e.graph g'
  child : ∀ x < e.graph.size, ∀ k, g'.child? x k =
    if x = item.host ∧ k = item.dep.name then some e.graph.size else e.graph.child? x k
  childless : ∀ k, g'.child? e.graph.size k = none
  resolved : (g'.node e.graph.size).resolved = some data.resolvedUrl
  supplies : g'.supplies e.graph.size item.dep = true

theorem Expansion.added (henv : env.Honest) (hhost : item.host < e.graph.size)
    (hf : env.fetch item.dep.name item.dep.range = .ok data) :
    e.Added item data (addChildNode e.graph item.host item.dep data).1 := by
  have hname : data.name = item.dep.name := env.fetch_name _ _ _ hf
  refine ⟨rfl, addChildNode_extends, fun x hx k => ?_, fun k => ?_, ?_, ?_⟩
  · rw [child?_addChildNode, hname, if_neg (Nat.ne_of_lt hx)]
  · rw [child?_addChildNode, if_neg fun heq => Nat.ne_of_gt hhost heq.1, if_pos rfl]
  · rw [node_addChildNode_self]
    rfl
  · simp only [Graph.supplies, node_addChildNode_self, ResolvedPackageData.toNode]
    simpa using henv.satisfies _ _ _ hf

theorem Expansion.Added.owed_eq (ha : e.Added item data g') (hx : x < e.graph.size) :
    g'.owed top first x = e.graph.owed top first x := by
  simp only [Graph.owed, ha.extend.neededDeps_eq hx]

namespace Expansion.Filled

variable {g' : Graph} (h : e.Filled top first) (hq : e.queue = item :: rest)
  (ha : e.Added item data g')
include h hq ha

theorem reach_added (hlt : ∀ x k c, e.graph.child? x k = some c → x < e.graph.size) (x : NodeId)
    (hx : top ≤ x) (hx' : x < g'.size) : g'.forest.Reach top x := by
  have hitem : item ∈ e.queue := hq ▸ mem_cons_self
  obtain ⟨htop, hhost, -⟩ := h.host item hitem
  have hkept : ∀ y, e.graph.forest.Reach top y → g'.forest.Reach top y := by
    refine fun y hy => hy.of_kept (fun _ => False) (fun y m c _ hc _ => ⟨id, ?_⟩) id
    refine (ha.child y (hlt y m c hc) m).trans ?_
    rw [if_neg]
    · exact hc
    · rintro ⟨rfl, rfl⟩
      cases (h.free item hitem).symm.trans hc
  rw [ha.size] at hx'
  rcases Nat.lt_succ_iff_lt_or_eq.mp hx' with hx' | rfl
  · exact hkept x (h.reach x hx hx')
  · refine (hkept item.host (h.reach item.host htop hhost)).child (k := item.dep.name) ?_
    exact (ha.child item.host hhost _).trans (if_pos ⟨rfl, rfl⟩)

theorem free_added (i : DepQueueItem) (hi : i ∈ rest) :
    g'.child? i.host i.dep.name = none := by
  have hmem : i ∈ e.queue := hq ▸ mem_cons_of_mem _ hi
  have hnodup := h.nodup
  rw [hq, map_cons, nodup_cons] at hnodup
  rw [ha.child i.host (h.host i hmem).2.1, if_neg, h.free i hmem]
  rintro ⟨hhost, hname⟩
  refine hnodup.1 (mem_map.mpr ⟨i, hi, ?_⟩)
  rw [hhost, hname]

theorem filled_added (hlt : ∀ x k c, e.graph.child? x k = some c → c < e.graph.size) (x : NodeId)
    (hx : top ≤ x) (hx' : x < e.graph.size) (hs : x ∉ e.skipped) (d : PackageDependency)
    (hd : d ∈ g'.owed top first x) :
    ⟨x, d⟩ ∈ rest ∨ ∃ c, g'.child? x d.name = some c ∧ g'.supplies c d = true := by
  rw [ha.owed_eq hx'] at hd
  rcases h.filled x hx hx' hs d hd with hmem | ⟨c, hc, hok⟩
  · rw [hq] at hmem
    rcases mem_cons.mp hmem with rfl | hmem
    · exact .inr ⟨_, (ha.child x hx' _).trans (if_pos ⟨rfl, rfl⟩), ha.supplies⟩
    · exact .inl hmem
  · refine .inr ⟨c, ?_, ?_⟩
    · rw [ha.child x hx', if_neg, hc]
      rintro ⟨rfl, hname⟩
      have hfree := h.free item (hq ▸ mem_cons_self)
      rw [← hname, hc] at hfree
      cases hfree
    · simpa only [Graph.supplies, ha.extend.node c (hlt x _ c hc)] using hok

theorem skipped_added (x : NodeId) (hx : x ∈ e.skipped) :
    top < x ∧ x < g'.size ∧ ∀ k, g'.child? x k = none := by
  obtain ⟨htop, hlt, hnone⟩ := h.skipped x hx
  refine ⟨htop, ha.size ▸ Nat.lt_succ_of_lt hlt, fun k => ?_⟩
  rw [ha.child x hlt, if_neg, hnone k]
  rintro ⟨rfl, -⟩
  exact (h.host item (hq ▸ mem_cons_self)).2.2 hx

theorem queue_added (i : DepQueueItem) (hi : i ∈ rest) :
    (top ≤ i.host ∧ i.host < e.graph.size ∧ i.host ∉ e.skipped) ∧
      i.dep ∈ g'.owed top first i.host := by
  have hmem : i ∈ e.queue := hq ▸ mem_cons_of_mem _ hi
  refine ⟨h.host i hmem, ?_⟩
  rw [ha.owed_eq (h.host i hmem).2.1]
  exact h.owed i hmem

omit ha in
theorem nodup_rest : (rest.map fun item => (item.host, item.dep.name)).Nodup := by
  have hnodup := h.nodup
  rw [hq, map_cons, nodup_cons] at hnodup
  exact hnodup.2

variable (hg : Packages.Grown ok e.graph)
include hg

theorem skip (hin : data.resolvedUrl ∈ e.expanded) : Expansion.Filled top first
    { e with graph := g', queue := rest, skipped := e.skipped ++ [e.graph.size] } where
  top_lt := ha.size ▸ Nat.lt_succ_of_lt h.top_lt
  reach := h.reach_added hq ha fun x k c hc =>
    (hg.sourced.parent c x (hg.linked x k c hc).1).2.2
  host i hi := by
    obtain ⟨⟨htop, hlt, hs⟩, -⟩ := h.queue_added hq ha i hi
    refine ⟨htop, ha.size ▸ Nat.lt_succ_of_lt hlt, fun hmem => ?_⟩
    rcases mem_append.mp hmem with hmem | hmem
    · exact hs hmem
    · exact hlt.ne (mem_singleton.mp hmem)
  owed i hi := (h.queue_added hq ha i hi).2
  free := h.free_added hq ha
  nodup := h.nodup_rest hq
  filled x hx hlt hs d hd := by
    obtain ⟨hs, hne⟩ := not_or.mp fun hor => hs (mem_append.mpr hor)
    have hlt : x < e.graph.size + 1 := ha.size ▸ hlt
    have hlt : x < e.graph.size := Nat.lt_of_le_of_ne (Nat.le_of_lt_succ hlt) fun heq =>
      hne (mem_singleton.mpr heq)
    exact h.filled_added hq ha (fun x k c hc => (hg.sourced.child x k c hc).2) x hx hlt hs d hd
  skipped x hx := by
    rcases mem_append.mp hx with hx | hx
    · exact h.skipped_added hq ha x hx
    · rw [mem_singleton.mp hx]
      exact ⟨h.top_lt, ha.size ▸ Nat.lt_succ_self _, ha.childless⟩
  expanded url hurl := by
    obtain ⟨y, htop, hlt, hs, hres⟩ := h.expanded url hurl
    refine ⟨y, htop, ha.size ▸ Nat.lt_succ_of_lt hlt, fun hmem => ?_, by
      rw [ha.extend.node y hlt, hres]⟩
    rcases mem_append.mp hmem with hmem | hmem
    · exact hs hmem
    · exact hlt.ne (mem_singleton.mp hmem)
  copy x hx := by
    -- the tarball has been expanded for a node created earlier
    have hcopy : ∃ y, top < y ∧ y < e.graph.size ∧ y ∉ e.skipped ∧
        (e.graph.node y).resolved = (g'.node x).resolved := by
      rcases mem_append.mp hx with hx | hx
      · rw [ha.extend.node x (h.skipped x hx).2.1]
        exact h.copy x hx
      · rw [mem_singleton.mp hx, ha.resolved]
        exact h.expanded _ hin
    obtain ⟨y, htop, hlt, hs, hres⟩ := hcopy
    refine ⟨y, htop, ha.size ▸ Nat.lt_succ_of_lt hlt, fun hmem => ?_, by
      rw [ha.extend.node y hlt, hres]⟩
    rcases mem_append.mp hmem with hmem | hmem
    · exact hs hmem
    · exact hlt.ne (mem_singleton.mp hmem)

theorem grow : Expansion.Filled top first
    { e with
      graph := g'
      queue := rest ++ (g'.neededDeps e.graph.size).map (DepQueueItem.mk e.graph.size)
      expanded := insert data.resolvedUrl e.expanded } where
  top_lt := ha.size ▸ Nat.lt_succ_of_lt h.top_lt
  reach := h.reach_added hq ha fun x k c hc =>
    (hg.sourced.parent c x (hg.linked x k c hc).1).2.2
  host i hi := by
    rcases mem_append.mp hi with hi | hi
    · obtain ⟨⟨htop, hlt, hs⟩, -⟩ := h.queue_added hq ha i hi
      exact ⟨htop, ha.size ▸ Nat.lt_succ_of_lt hlt, hs⟩
    · obtain ⟨d, -, rfl⟩ := mem_map.mp hi
      exact ⟨h.top_lt.le, ha.size ▸ Nat.lt_succ_self _, fun hmem => (h.skipped _ hmem).2.1.false⟩
  owed i hi := by
    rcases mem_append.mp hi with hi | hi
    · exact (h.queue_added hq ha i hi).2
    · obtain ⟨d, hd, rfl⟩ := mem_map.mp hi
      rw [Graph.owed, if_neg h.top_lt.ne']
      exact hd
  free i hi := by
    rcases mem_append.mp hi with hi | hi
    · exact h.free_added hq ha i hi
    · obtain ⟨d, -, rfl⟩ := mem_map.mp hi
      exact ha.childless _
  nodup := by
    rw [map_append, map_map]
    refine nodup_append.mpr ⟨h.nodup_rest hq, ?_, ?_⟩
    · have hnames := (Graph.neededDeps_names_nodup (g := g') (x := e.graph.size)).map
        (f := Prod.mk e.graph.size) fun _ _ heq => (Prod.mk.inj heq).2
      rwa [map_map] at hnames
    · rintro a hi b hb rfl
      obtain ⟨i, hmem, rfl⟩ := mem_map.mp hi
      obtain ⟨d, -, heq⟩ := mem_map.mp hb
      exact (h.queue_added hq ha i hmem).1.2.1.ne (Prod.mk.inj heq).1.symm
  filled x hx hlt hs d hd := by
    rcases Nat.lt_succ_iff_lt_or_eq.mp (ha.size ▸ hlt : x < e.graph.size + 1) with hlt | rfl
    · rcases h.filled_added hq ha (fun x k c hc => (hg.sourced.child x k c hc).2) x hx hlt hs d hd
        with hmem | hchild
      · exact .inl (mem_append_left _ hmem)
      · exact .inr hchild
    · rw [Graph.owed, if_neg h.top_lt.ne'] at hd
      exact .inl (mem_append_right _ (mem_map_of_mem hd))
  skipped := h.skipped_added hq ha
  expanded url hurl := by
    rcases Finset.mem_insert.mp hurl with rfl | hurl
    · exact ⟨e.graph.size, h.top_lt, ha.size ▸ Nat.lt_succ_self _,
        fun hmem => (h.skipped _ hmem).2.1.false, ha.resolved⟩
    · obtain ⟨y, htop, hlt, hs, hres⟩ := h.expanded url hurl
      exact ⟨y, htop, ha.size ▸ Nat.lt_succ_of_lt hlt, hs, by rw [ha.extend.node y hlt, hres]⟩
  copy x hx := by
    obtain ⟨y, htop, hlt, hs, hres⟩ := h.copy x hx
    exact ⟨y, htop, ha.size ▸ Nat.lt_succ_of_lt hlt, hs, by
      rw [ha.extend.node y hlt, hres, ha.extend.node x (h.skipped x hx).2.1]⟩

end Expansion.Filled

theorem Expansion.Filled.expand (h : e.Filled top first) (hq : e.queue = item :: rest)
    (hg : Packages.Grown ok e.graph) (henv : env.Honest)
    (hf : env.fetch item.dep.name item.dep.range = .ok data) :
    (e.expand item rest data).Filled top first := by
  have ha := Expansion.added henv (h.host item (hq ▸ mem_cons_self)).2.1 hf
  simp only [Expansion.expand, addChildNode_snd]
  split
  · rename_i hin
    exact h.skip hq ha hg hin
  · exact h.grow hq ha hg

theorem Env.Honest.admits (henv : env.Honest) :
    Admits env fun n => ∀ v, n.version = some v → Parsed v where
  node _ _ _ _ hf v hv := by
    cases hv
    exact henv.parsed _ _ _ hf
  subtreeRoot _ _ _ hf v hv := by
    cases hv
    exact henv.parsed _ _ _ hf

theorem expandQueue_filled (h : e.Filled top first) (henv : env.Honest)
    (hg : e.Grown fun n => ∀ v, n.version = some v → Parsed v)
    (he : expandQueue env.fetch turns e = .ok e') : e'.Filled top first ∧ e'.queue = [] := by
  induction turns generalizing e with
  | zero => cases he
  | succ turns ih =>
    simp only [expandQueue] at he
    split at he
    · rename_i hempty
      cases he
      exact ⟨h, hempty⟩
    · rename_i item rest hq
      obtain ⟨data, hf, he⟩ := bind_eq_ok he
      exact ih (h.expand hq hg.graph henv hf) (expand_grown henv.admits hg hq hf) he

end

end FridaCore.Packages
