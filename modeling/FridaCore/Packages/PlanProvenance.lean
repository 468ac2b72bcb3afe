import FridaCore.Packages.Provenance

/-!
# Where the paths of an installation come from

`Sourced` and the links between parents and children are followed from the
lockfile to the tree that is installed. Every path that is removed as an orphan
or installed into is then made of the names of such nodes (`PathOf`).
-/

namespace FridaCore.Packages

open List Option Function

variable {env : Env} {ok : PackageNode → Prop} {g g' : Graph}

def AdmitsLock (ok : PackageNode → Prop) (packages : List (String × PackageLockPackageInfo)) :
    Prop :=
  ∀ entry ∈ packages, entry.1 ≠ "" → ∀ path, lockNames (Text.split entry.1 '/') = .ok path →
    (∀ name ∈ path, ok { name := some name }) ∧ ∀ n, ok n → ok (n.withLock entry.2)

theorem lockNames_nonempty (h : lockNames segs = .ok path) (hs : segs ≠ []) : path ≠ [] := by
  unfold lockNames at h
  split at h
  · exact absurd rfl hs
  · split at h
    · split at h
      · cases h
      · obtain ⟨_, -, h⟩ := bind_eq_ok h
        cases h
        simp
    · obtain ⟨_, -, h⟩ := bind_eq_ok h
      cases h
      simp
  · cases h

theorem descend_grown (h : Grown ok g) (hcur : cur < g.size)
    (hpath : ∀ name ∈ path, ok { name := some name }) :
    Grown ok (descend g cur path).1 ∧ (descend g cur path).2 < (descend g cur path).1.size ∧
      ((descend g cur path).2 = rootId → path = []) := by
  induction path generalizing g cur with
  | nil => exact ⟨h, hcur, fun _ => rfl⟩
  | cons name path ih =>
    obtain ⟨hname, hpath⟩ := forall_mem_cons.mp hpath
    -- what is below a node is never the root
    have hdeeper : ∀ g₁ next, Grown ok g₁ → next < g₁.size → next ≠ rootId →
        Grown ok (descend g₁ next path).1 ∧
          (descend g₁ next path).2 < (descend g₁ next path).1.size ∧
          ((descend g₁ next path).2 = rootId → name :: path = []) := by
      intro g₁ next hg₁ hlt hne
      obtain ⟨hd, hlt', hroot⟩ := ih hg₁ hlt hpath
      refine ⟨hd, hlt', fun heq => ?_⟩
      rw [hroot heq] at heq
      exact absurd heq hne
    simp only [descend]
    split
    · rename_i next hnext
      have := h.sourced.child _ _ _ hnext
      exact hdeeper g next h this.2 this.1
    · exact hdeeper _ g.size (h.createBelow hname rfl hcur) (Nat.lt_succ_self _)
        h.sourced.nonempty.ne'

theorem Grown.describe (h : Grown ok g) (hn : ok n)
    (hname : n.name = (g.node x).name) :
    Grown ok { g with node := update g.node x n } := by
  refine ⟨⟨h.sourced.nonempty, h.sourced.root, ?_, h.sourced.child, h.sourced.parent⟩, ?_,
    h.ordered⟩
  · intro y hy hlt
    by_cases heq : y = x
    · simpa [heq] using hn
    · simpa [heq] using h.sourced.node y hy hlt
  · intro y k c hc
    refine ⟨(h.linked y k c hc).1, ?_⟩
    have hk := (h.linked y k c hc).2
    by_cases heq : c = x
    · subst heq
      simpa [Graph.name, hname] using hk
    · simpa [Graph.name, heq] using hk

theorem lockEntries_grown (hlock : AdmitsLock ok packages) (h : Grown ok g)
    (hl : lockEntries g packages = .ok g') : Grown ok g' := by
  induction packages generalizing g with
  | nil =>
    cases hl
    exact h
  | cons entry packages ih =>
    obtain ⟨hentry, hrest⟩ := forall_mem_cons.mp hlock
    obtain ⟨key, pkg⟩ := entry
    simp only [lockEntries] at hl
    split at hl
    · exact ih hrest h hl
    · rename_i hkey
      obtain ⟨g₁, hg₁, hl⟩ := bind_eq_ok hl
      obtain ⟨path, hpath, hg₁⟩ := bind_eq_ok hg₁
      cases hg₁
      obtain ⟨hnames, hwith⟩ := hentry hkey path hpath
      obtain ⟨hd, hlt, hroot⟩ := descend_grown h h.sourced.nonempty hnames
      have hne : (descend g rootId path).2 ≠ rootId := fun heq =>
        lockNames_nonempty hpath (Text.split_ne_nil hkey) (hroot heq)
      exact ih hrest (hd.describe (hwith _ (hd.sourced.node _ hne hlt)) rfl) hl

theorem lockToGraph_grown (hlock : AdmitsLock ok packages)
    (hl : lockToGraph manifest packages = .ok g) : Grown ok g :=
  lockEntries_grown hlock rootGraph_grown hl

def PathOf (ok : PackageNode → Prop) (path : String) : Prop :=
  ∃ nodes : List PackageNode, nodes ≠ [] ∧ (∀ n ∈ nodes, ok n) ∧
    path = "/".intercalate (nodes.map fun n => "node_modules/" ++ n.name.getD "")

theorem pathNamesWithin_nodes (h : Sourced ok g) (hp : g.pathNamesWithin fuel x = .ok ns) :
    ∃ nodes : List PackageNode, (∀ n ∈ nodes, ok n) ∧ ns = nodes.map (·.name.getD "") ∧
      (nodes = [] → g.parent x = none) := by
  induction fuel generalizing x ns with
  | zero => cases hp
  | succ fuel ih =>
    simp only [Graph.pathNamesWithin] at hp
    split at hp
    · rename_i p hparent
      obtain ⟨above, habove, hp⟩ := bind_eq_ok hp
      cases hp
      obtain ⟨nodes, hok, rfl, -⟩ := ih habove
      obtain ⟨hx, hlt, -⟩ := h.parent x p hparent
      refine ⟨nodes ++ [g.node x], ?_, by simp [Graph.name], by simp⟩
      exact forall_mem_append.mpr ⟨hok, by simpa using h.node x hx hlt⟩
    · rename_i hparent
      cases hp
      exact ⟨[], by simp, rfl, fun _ => hparent⟩

theorem computePath_pathOf (h : Sourced ok g) (hx : g.parent x ≠ none)
    (hp : g.computePath x = .ok path) : PathOf ok path := by
  obtain ⟨ns, hns, hp⟩ := bind_eq_ok hp
  cases hp
  obtain ⟨nodes, hok, rfl, hnil⟩ := pathNamesWithin_nodes h hns
  exact ⟨nodes, fun heq => hx (hnil heq), hok, by rw [List.map_map]; rfl⟩

section
variable {P : Graph → Prop} (hmarks : ∀ {g marked}, P g → P { g with marked })
include hmarks

theorem markProviders_keeps (h : P g)
    (hm : Graph.markProviders x g deps queue = .ok (g', queue')) : P g' := by
  induction deps generalizing g queue with
  | nil =>
    cases hm
    exact h
  | cons d deps ih =>
    obtain ⟨provider, -, hm⟩ := bind_eq_ok hm
    split at hm
    · exact ih h hm
    · split at hm
      · exact ih h hm
      · exact ih (hmarks h) hm

theorem markQueue_keeps (h : P g)
    (hm : Graph.markQueue fuel g visited queue = .ok g') : P g' := by
  induction fuel generalizing g visited queue with
  | zero => cases hm
  | succ fuel ih =>
    cases queue with
    | nil =>
      cases hm
      exact h
    | cons x queue =>
      simp only [Graph.markQueue] at hm
      split at hm
      · exact ih h hm
      · obtain ⟨⟨g₁, queue₁⟩, hp, hm⟩ := bind_eq_ok hm
        exact ih (markProviders_keeps hmarks h hp) hm

end

structure Swept (ok : PackageNode → Prop) (g : Graph) (o : Orphaned) : Prop where
  grown : Grown ok g
  paths : ∀ path ∈ o.paths, PathOf ok path

/-- Parents above `x` are as they were. -/
def KeepsAbove (x : NodeId) (g g' : Graph) : Prop :=
  ∀ y p, g.parent y = some p → p < x → g'.parent y = some p

/-- Sweeping below a child leaves its siblings where they are, so each child of
the list still has its parent when its turn comes. -/
theorem sweepChildren_swept
    (hsweep : ∀ g x o g' o', Swept ok g o → sweep g x o = .ok (g', o') →
      Swept ok g' o' ∧ KeepsAbove x g g')
    (h : Swept ok g o) (hnodup : children.Nodup)
    (hchildren : ∀ c ∈ children, g.parent c = some node)
    (hs : Graph.sweepChildren sweep node g children o = .ok (g', o')) :
    Swept ok g' o' ∧ KeepsAbove node g g' := by
  induction children generalizing g o with
  | nil =>
    cases hs
    exact ⟨h, fun _ _ hp _ => hp⟩
  | cons c children ih =>
    obtain ⟨hc, hrest⟩ := forall_mem_cons.mp hchildren
    obtain ⟨hnot, hnodup⟩ := nodup_cons.mp hnodup
    have hlt : node < c := h.grown.ordered c node hc
    simp only [Graph.sweepChildren] at hs
    split at hs
    · obtain ⟨⟨g₁, o₁⟩, h₁, hs⟩ := bind_eq_ok hs
      obtain ⟨hswept, hkeep⟩ := hsweep _ _ _ _ _ h h₁
      obtain ⟨h', hkeep'⟩ := ih hswept hnodup (fun d hd => hkeep d node (hrest d hd) hlt) hs
      exact ⟨h', fun y p hp hpn => hkeep' y p (hkeep y p hp (hpn.trans hlt)) hpn⟩
    · obtain ⟨id, -, hs⟩ := bind_eq_ok hs
      obtain ⟨path, hpath, hs⟩ := bind_eq_ok hs
      have hothers : ∀ y, y ≠ c → ((g.unsetChild node (g.name c)).setParent c none).parent y =
          g.parent y := fun y hy => by rw [Graph.parent_setParent, if_neg hy]; rfl
      have hpaths : ∀ q ∈ o.paths.insert path, PathOf ok q := by
        intro q hq
        rcases mem_insert_iff.mp hq with rfl | hq
        · exact computePath_pathOf h.grown.sourced (by simp [hc]) hpath
        · exact h.paths q hq
      have hrest' : ∀ d ∈ children,
          ((g.unsetChild node (g.name c)).setParent c none).parent d = some node := by
        intro d hd
        rw [hothers d fun heq => hnot (heq ▸ hd)]
        exact hrest d hd
      obtain ⟨h', hkeep⟩ := ih ⟨h.grown.detach hc, hpaths⟩ hnodup hrest' hs
      refine ⟨h', fun y p hp hpn => hkeep y p ?_ hpn⟩
      have hyc : y ≠ c := by
        rintro rfl
        rw [hc] at hp
        exact hpn.ne (some.inj hp).symm
      rw [hothers y hyc, hp]

theorem sweepUnreachablePackages_swept (h : Swept ok g o)
    (hs : Graph.sweepUnreachablePackages fuel g node o = .ok (g', o')) :
    Swept ok g' o' ∧ KeepsAbove node g g' := by
  induction fuel generalizing g node o g' o' with
  | zero => cases hs
  | succ fuel ih =>
    refine sweepChildren_swept (fun _ _ _ _ _ h hs => ih h hs) h h.grown.linked.childList_nodup
      (fun c hc => ?_) hs
    obtain ⟨k, hk⟩ := Graph.mem_childList.mp hc
    exact (h.grown.linked _ _ _ hk).1

theorem removeOrphanedPackages_swept (h : Grown ok g)
    (hr : g.removeOrphanedPackages rootId = .ok (g', o)) : Swept ok g' o := by
  obtain ⟨g₁, hmark, hr⟩ := bind_eq_ok hr
  obtain ⟨⟨g₂, o₂⟩, hsweep, hr⟩ := bind_eq_ok hr
  obtain ⟨g₃, hreset, hr⟩ := bind_eq_ok hr
  cases hr
  obtain ⟨nodes, -, hreset⟩ := bind_eq_ok hreset
  cases hreset
  have h₁ : Swept ok g₁ {} := ⟨markQueue_keeps (·.withMarks) h.withMarks hmark, by simp⟩
  obtain ⟨h₂, -⟩ := sweepUnreachablePackages_swept h₁ hsweep
  exact ⟨h₂.grown.withMarks, h₂.paths⟩

theorem trimOrphaned_subset (ht : g.trimOrphaned nodes ps o = .ok o') : o'.paths ⊆ o.paths := by
  induction ps generalizing o with
  | nil =>
    cases ht
    exact List.Subset.refl _
  | cons path ps ih =>
    obtain ⟨found, -, ht⟩ := bind_eq_ok ht
    split at ht
    · exact ih ht
    · obtain ⟨id, -, ht⟩ := bind_eq_ok ht
      split at ht
      · exact List.Subset.trans (ih ht) erase_subset
      · exact ih ht

section
variable [UnicharTables]

theorem buildTree_provenance (ha : Admits env ok)
    (hbase : ∀ g, base = some g → Grown ok g)
    (hb : buildTree env bounds manifest base = .ok tree) :
    Sourced ok tree.graph ∧ ∀ path ∈ tree.orphans, PathOf ok path := by
  cases base with
  | none =>
    obtain ⟨ideal, hideal, hb⟩ := bind_eq_ok hb
    obtain ⟨⟨g, hoists⟩, hhoist, hb⟩ := bind_eq_ok hb
    cases hb
    have hideal := (buildIdealGraph_grown ha hideal).sourced
    exact ⟨hoistGraph_keeps Sourced.apply hideal hhoist, by simp⟩
  | some g =>
    have hg := hbase g rfl
    obtain ⟨toUnlock, -, hb⟩ := bind_eq_ok hb
    obtain ⟨⟨g₁, patches⟩, hpatch, hb⟩ := bind_eq_ok hb
    obtain ⟨⟨g₂, orphaned⟩, hremove, hb⟩ := bind_eq_ok hb
    obtain ⟨⟨g₃, hoists⟩, hhoist, hb⟩ := bind_eq_ok hb
    obtain ⟨trimmed, htrim, hb⟩ := bind_eq_ok hb
    cases hb
    have hpatched : Grown ok g₁ := by
      generalize hy : Graph.yankNodes toUnlock g (env.hashOrder toUnlock) [] = yanked at hpatch
      obtain ⟨g₀, anchors⟩ := yanked
      obtain ⟨hyanked, hsize, hanchors⟩ := yankNodes_grown hg (by simp) hy
      refine patchHoles_grown ha hyanked (fun a hmem => ?_) hpatch
      rw [hsize]
      split at hmem
      · exact hanchors a hmem
      · rcases mem_append.mp hmem with hmem | hmem
        · exact hanchors a hmem
        · exact mem_singleton.mp hmem ▸ hg.sourced.nonempty
    have hswept := removeOrphanedPackages_swept hpatched hremove
    refine ⟨hoistGraph_keeps Sourced.apply hswept.grown.sourced hhoist, fun path hpath => ?_⟩
    split at htrim
    · cases htrim
      exact hswept.paths path hpath
    · obtain ⟨nodes, -, htrim⟩ := bind_eq_ok htrim
      exact hswept.paths path (trimOrphaned_subset htrim hpath)

end

theorem compatiblePaths_subset (h : compatiblePaths platform g pathMap paths = .ok kept) :
    kept ⊆ paths := by
  induction paths generalizing kept with
  | nil =>
    cases h
    exact List.Subset.refl _
  | cons path paths ih =>
    simp only [compatiblePaths] at h
    split at h
    · cases h
    · obtain ⟨fits, -, h⟩ := bind_eq_ok h
      obtain ⟨rest, hrest, h⟩ := bind_eq_ok h
      cases h
      have hsub := ih hrest
      split
      · exact cons_subset_cons _ hsub
      · exact List.Subset.trans hsub (subset_cons_self _ _)

theorem computePackagesToInstall_pathOf (h : Sourced ok g)
    (hc : computePackagesToInstall platform omits g = .ok paths) :
    ∀ path ∈ paths, PathOf ok path := by
  obtain ⟨pathMap, -, hc⟩ := bind_eq_ok hc
  obtain ⟨all, hall, hc⟩ := bind_eq_ok hc
  obtain ⟨all₁, h₁, hc⟩ := bind_eq_ok hc
  obtain ⟨all₂, h₂, hc⟩ := bind_eq_ok hc
  intro path hpath
  have hmem₂ : path ∈ all₂ := compatiblePaths_subset hc hpath
  have hmem₁ : path ∈ all₁ := by
    split at h₂
    · obtain ⟨_, -, h₂⟩ := bind_eq_ok h₂
      cases h₂
      exact (mem_filter.mp hmem₂).1
    · cases h₂
      exact hmem₂
  have hmem : path ∈ all := by
    split at h₁
    · obtain ⟨_, -, h₁⟩ := bind_eq_ok h₁
      cases h₁
      exact (mem_filter.mp hmem₁).1
    · cases h₁
      exact hmem₁
  obtain ⟨nodes, -, hall⟩ := bind_eq_ok hall
  obtain ⟨x, hx, hpath⟩ := mem_of_mapM hall hmem
  refine computePath_pathOf h ?_ hpath
  have := (mem_filter.mp hx).2
  intro hnone
  simp [hnone] at this

theorem PathOf.ne_empty (h : PathOf ok path) : path ≠ "" := by
  obtain ⟨nodes, hne, -, rfl⟩ := h
  obtain ⟨n, nodes, rfl⟩ := exists_cons_of_ne_nil hne
  exact Text.intercalate_ne_empty (by simp)

theorem computePath_of_parent_none (hx : g.parent x = none) : g.computePath x = .ok "" := by
  simp [Graph.computePath, Graph.fuel, Graph.pathNamesWithin, hx]

theorem reifyGraph_installs (h : Sourced ok g)
    (hr : reifyGraph platform omits g = .ok installs) (hmem : (path, x) ∈ installs) :
    PathOf ok path ∧ ok (g.node x) := by
  obtain ⟨paths, hpaths, hr⟩ := bind_eq_ok hr
  obtain ⟨preorder, -, hr⟩ := bind_eq_ok hr
  obtain ⟨nodes, hnodes, hr⟩ := bind_eq_ok hr
  cases hr
  obtain ⟨hnode, hpath⟩ := mem_filter.mp hmem
  have hpathOf := computePackagesToInstall_pathOf h hpaths path (by simpa using hpath)
  refine ⟨hpathOf, ?_⟩
  obtain ⟨y, -, hy⟩ := mem_of_mapM hnodes hnode
  obtain ⟨path', hcompute, hy⟩ := bind_eq_ok hy
  cases hy
  cases hp : g.parent x with
  | none =>
    rw [computePath_of_parent_none hp] at hcompute
    exact absurd (Except.ok.inj hcompute).symm hpathOf.ne_empty
  | some p =>
    obtain ⟨hx, hlt, -⟩ := h.parent x p hp
    exact h.node x hx hlt

/-- All that an installation reads makes fine nodes. -/
structure Feeds [UnicharTables] (env : Env) (lockJson : Option Json) (ok : PackageNode → Prop) :
    Prop where
  admits : Admits env ok
  lock : ∀ j locked, lockJson = some j → readLockfile j = .ok locked → AdmitsLock ok locked

/-- What holds of every node that could be made holds of every node installed,
and all paths are made of such nodes. -/
structure InstallPlan.Provenance (ok : PackageNode → Prop) (plan : InstallPlan) : Prop where
  orphans : ∀ path ∈ plan.orphans, PathOf ok path
  installs : ∀ installs, plan.installs = .ok installs → ∀ path x, (path, x) ∈ installs →
    PathOf ok path ∧ ok (plan.graph.node x)

theorem install_provenance [UnicharTables] (h : Feeds env lockJson ok)
    (hi : install env bounds platform opts packageJson lockJson = .ok plan) :
    plan.Provenance ok := by
  obtain ⟨specs, -, hi⟩ := bind_eq_ok hi
  obtain ⟨manifest₀, -, hi⟩ := bind_eq_ok hi
  obtain ⟨⟨manifest, dirty⟩, -, hi⟩ := bind_eq_ok hi
  obtain ⟨locked, hlocked, hi⟩ := bind_eq_ok hi
  have htree : ∀ base tree, (∀ g, base = some g → Grown ok g) →
      buildTree env bounds manifest base = .ok tree →
      InstallPlan.Provenance ok
        ⟨manifest, tree.graph, false, tree.orphans, reifyGraph platform opts.omits tree.graph⟩ := by
    intro base tree hbase hb
    obtain ⟨hs, horphans⟩ := buildTree_provenance h.admits hbase hb
    exact ⟨horphans, fun _ hr _ _ hmem => reifyGraph_installs hs hr hmem⟩
  split at hi
  · obtain ⟨tree, hb, hi⟩ := bind_eq_ok hi
    cases hi
    exact htree none tree (by simp) hb
  · rename_i locked
    obtain ⟨lockClean, -, hi⟩ := bind_eq_ok hi
    obtain ⟨base, hbase, hi⟩ := bind_eq_ok hi
    have hgrown : Grown ok base := by
      cases lockJson with
      | none => cases hlocked
      | some j =>
        obtain ⟨locked', hl, heq⟩ := bind_eq_ok hlocked
        cases heq
        exact lockToGraph_grown (h.lock j _ rfl hl) hbase
    split at hi
    · cases hi
      exact ⟨by simp, fun _ hr _ _ hmem => reifyGraph_installs hgrown.sourced hr hmem⟩
    · obtain ⟨tree, hb, hi⟩ := bind_eq_ok hi
      cases hi
      exact htree (some base) tree (fun g hg => some.inj hg ▸ hgrown) hb

end FridaCore.Packages
