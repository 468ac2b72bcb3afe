import FridaCore.Packages.Integrity
import FridaCore.Packages.LockfileLaws
import FridaCore.Packages.NpmStyle

/-!
# Installing twice

After an installation has written its lockfile, the next one should find it in
agreement with the manifest. That takes more than the writer makes sure of: it
leaves out the root's optional and peer dependencies, which the comparison then
misses, and it writes nulls which the reader does not accept.
-/

namespace FridaCore.Packages

open List Option Prod

open Std (TreeMap)
open Semver

namespace PackageDependencies

variable {deps : PackageDependencies} {d : PackageDependency} {k : String}

theorem eq_of_name_eq (hd : d ∈ deps.values) (hd' : d' ∈ deps.values) (h : d.name = d'.name) :
    d = d' := by
  rw [mem_values] at hd hd'
  rw [h, hd'] at hd
  exact (some.inj hd).symm

theorem get?_add : (deps.add d).get? k = if k = d.name then some d else deps.get? k := by
  simp only [get?, add, TreeMap.getElem?_insert, Std.LawfulEqCmp.compare_eq_iff_eq]
  by_cases h : d.name = k
  · simp [h]
  · simp [h, Ne.symm h]

theorem get?_foldl_add {ds : List PackageDependency}
    (huniq : ∀ d ∈ ds, ∀ d' ∈ ds, d.name = d'.name → d = d') :
    (ds.foldl .add deps).get? k = some d ↔
      d ∈ ds ∧ d.name = k ∨ deps.get? k = some d ∧ ∀ d' ∈ ds, d'.name ≠ k := by
  induction ds generalizing deps with
  | nil => simp
  | cons a ds ih =>
    have huniq' : ∀ d ∈ ds, ∀ d' ∈ ds, d.name = d'.name → d = d' := fun d hd d' hd' =>
      huniq d (mem_cons_of_mem _ hd) d' (mem_cons_of_mem _ hd')
    rw [foldl_cons, ih huniq', get?_add, forall_mem_cons]
    constructor
    · rintro (⟨hd, hk⟩ | ⟨hget, hrest⟩)
      · exact .inl ⟨mem_cons_of_mem _ hd, hk⟩
      · split at hget
        · rename_i hk
          cases hget
          exact .inl ⟨mem_cons_self, hk.symm⟩
        · rename_i hk
          exact .inr ⟨hget, Ne.symm hk, hrest⟩
    · rintro (⟨hd, hk⟩ | ⟨hget, hne, hrest⟩)
      · by_cases hmem : d ∈ ds
        · exact .inl ⟨hmem, hk⟩
        · have heq : d = a := (mem_cons.mp hd).resolve_right hmem
          subst heq
          refine .inr ⟨by rw [if_pos hk.symm], fun d' hd' hk' => hmem ?_⟩
          rwa [huniq d mem_cons_self d' (mem_cons_of_mem _ hd') (hk.trans hk'.symm)]
      · exact .inr ⟨by rw [if_neg (Ne.symm hne)]; exact hget, hrest⟩

theorem mem_withRole :
    d ∈ deps.withRole role ↔ d ∈ deps.values ∧ d.role = role := by
  simp [withRole]

theorem withRole_unique :
    ∀ d ∈ deps.withRole role, ∀ d' ∈ deps.withRole role, d.name = d'.name → d = d' :=
  fun _ hd _ hd' => eq_of_name_eq (mem_withRole.mp hd).1 (mem_withRole.mp hd').1

theorem get?_written : deps.written.get? k = some d ↔
    d ∈ deps.values ∧ d.name = k ∧ (d.role = .runtime ∨ d.role = .development) := by
  have hnone : PackageDependencies.none.get? k = .none := by simp [get?, PackageDependencies.none]
  rw [written, get?_foldl_add withRole_unique, get?_foldl_add withRole_unique, mem_withRole,
    mem_withRole, hnone]
  constructor
  · rintro (⟨⟨hd, hrole⟩, hk⟩ | ⟨⟨⟨hd, hrole⟩, hk⟩ | ⟨hno, -⟩, -⟩)
    · exact ⟨hd, hk, .inl hrole⟩
    · exact ⟨hd, hk, .inr hrole⟩
    · cases hno
  · rintro ⟨hd, hk, hrole | hrole⟩
    · exact .inl ⟨⟨hd, hrole⟩, hk⟩
    · refine .inr ⟨.inl ⟨⟨hd, hrole⟩, hk⟩, fun d' hd' hk' => ?_⟩
      obtain ⟨hd', hrole'⟩ := mem_withRole.mp hd'
      rw [eq_of_name_eq hd hd' (hk.trans hk'.symm), hrole'] at hrole
      cases hrole

end PackageDependencies

/-- The manifest has only dependencies of the kinds that are written for the root. -/
def Manifest.Lockable (manifest : Manifest) : Prop :=
  ∀ d ∈ manifest.dependencies.values, d.role = .runtime ∨ d.role = .development

theorem depsMatch_written_iff :
    depsMatch manifest manifest.dependencies.written = true ↔ manifest.Lockable := by
  simp only [depsMatch, Bool.and_eq_true, List.all_eq_true]
  constructor
  · rintro ⟨hmatch, -⟩ d hd
    have hany := hmatch d hd
    cases hget : manifest.dependencies.written.get? d.name with
    | none => simp [hget] at hany
    | some l =>
      obtain ⟨hl, hname, hrole⟩ := PackageDependencies.get?_written.mp hget
      rwa [PackageDependencies.eq_of_name_eq hl hd hname] at hrole
  · intro h
    refine ⟨fun d hd => ?_, fun l hl => ?_⟩
    · rw [PackageDependencies.get?_written.mpr ⟨hd, rfl, h d hd⟩]
      simp
    · obtain ⟨hl, -, -⟩ := PackageDependencies.get?_written.mp (PackageDependencies.mem_values.mp hl)
      have hget := PackageDependencies.mem_values.mp hl
      rw [PackageDependencies.contains, TreeMap.contains_eq_isSome_getElem?]
      exact Option.isSome_of_eq_some hget

structure PackageNode.Complete (n : PackageNode) : Prop where
  version : n.version ≠ none
  resolved : n.resolved ≠ none
  integrity : n.integrity ≠ none

theorem PackageNode.complete_iff {n : PackageNode} :
    n.Complete ↔ n.version.isSome ∧ n.resolved.isSome ∧ n.integrity.isSome := by
  simp only [isSome_iff_ne_none]
  exact ⟨fun ⟨hv, hr, hi⟩ => ⟨hv, hr, hi⟩, fun ⟨hv, hr, hi⟩ => ⟨hv, hr, hi⟩⟩

theorem writePackage_obj (hw : writePackage flags pn = .ok r) : ∃ ms, r = .obj ms := by
  obtain ⟨peers, -, hw⟩ := bind_eq_ok hw
  cases hw
  exact ⟨_, rfl⟩

section
variable [UnicharTables] {g : Graph}

theorem readLockPackages_cons (hr : ∃ ms, r = .obj ms) (rest : List (String × Json)) :
    (∃ locked, readLockPackages ((key, r) :: rest) = .ok locked) ↔
      (∃ info, readLockPackage key r = .ok info) ∧ ∃ locked, readLockPackages rest = .ok locked := by
  obtain ⟨ms, rfl⟩ := hr
  constructor
  · rintro ⟨locked, h⟩
    obtain ⟨info, hinfo, h⟩ := bind_eq_ok h
    obtain ⟨locked', hlocked, -⟩ := bind_eq_ok h
    exact ⟨⟨info, hinfo⟩, locked', hlocked⟩
  · rintro ⟨⟨info, hinfo⟩, locked, hlocked⟩
    exact ⟨(key, info) :: locked, by simp only [readLockPackages, hinfo, hlocked]; rfl⟩

theorem readLockPackages_written (hw : writePackages g devOnly optionalOnly entries = .ok packages)
    (hv : ∀ e ∈ entries, ∀ v, (g.node e.2).version = some v → Parsed v) :
    (∃ locked, readLockPackages packages = .ok locked) ↔
      ∀ e ∈ entries, e.1 ≠ "" → (g.node e.2).Complete := by
  induction entries generalizing packages with
  | nil =>
    cases hw
    simp [readLockPackages]
  | cons e entries ih =>
    obtain ⟨hx, hv⟩ := forall_mem_cons.mp hv
    simp only [writePackages] at hw
    rw [forall_mem_cons]
    split at hw
    · rename_i hkey
      rw [ih hw hv]
      exact ⟨fun h => ⟨fun hne => absurd hkey hne, h⟩, And.right⟩
    · rename_i hkey
      obtain ⟨json, hjson, hw⟩ := bind_eq_ok hw
      obtain ⟨packages', hpackages, hw⟩ := bind_eq_ok hw
      cases hw
      obtain ⟨⟨deps, hread⟩, hversion, hresolved, hintegrity⟩ := writePackage_readable hjson hx
      rw [readLockPackages_cons (writePackage_obj hjson), hread.package hkey, ih hpackages hv,
        hversion, hresolved, hintegrity, isSome_map, PackageNode.complete_iff]
      exact and_congr_left fun _ => ⟨fun h _ => h, fun h => h hkey⟩

end

def Graph.Listed (g : Graph) (x : NodeId) : Prop :=
  ∃ pathMap key, g.buildPathMap rootId = .ok pathMap ∧ key ≠ "" ∧ pathMap[key]? = some x

section
variable [UnicharTables] {manifest : Manifest}

def LockClean (manifest : Manifest) (doc : Json) : Prop :=
  ∃ locked root, readLockfile doc = .ok locked ∧ locked.lookup "" = some root ∧
    depsMatch manifest root.dependencies = true

theorem LockClean.install (h : LockClean manifest doc) (hj : readManifest j = .ok manifest)
    (env : Env) (bounds : Bounds) (platform : Platform) (role : PackageRole)
    (omits : List PackageRole) :
    ∃ locked, readLockfile doc = .ok locked ∧
      Packages.install env bounds platform ⟨[], role, omits⟩ (some j) (some doc) = (do
        let base ← lockToGraph manifest locked
        return ⟨manifest, base, true, [], reifyGraph platform omits base⟩) := by
  obtain ⟨locked, root, hread, hroot, hmatch⟩ := h
  refine ⟨locked, hread, ?_⟩
  have hlocked : (some doc).mapM readLockfile = .ok (some locked) := by
    simp only [Option.mapM, hread]
    rfl
  have hspecs : applySpecsToManifest env [] manifest false = .ok (manifest, false) := rfl
  simp only [Packages.install, List.mapM_nil, hj, hlocked, pure, Except.pure, bind, Except.bind,
    hspecs, hroot, hmatch, Bool.false_eq_true, if_false, if_true]

theorem readLockfile_written (hw : writeLockfile manifest g directory = .ok doc) :
    ∃ pathMap devOnly optionalOnly packages, g.buildPathMap rootId = .ok pathMap ∧
      writePackages g devOnly optionalOnly pathMap.toList = .ok packages ∧
      readLockfile doc = readLockPackages (("", writeRootPackage manifest) :: packages) := by
  obtain ⟨pathMap, hmap, hw⟩ := bind_eq_ok hw
  obtain ⟨devOnly, -, hw⟩ := bind_eq_ok hw
  obtain ⟨optionalOnly, -, hw⟩ := bind_eq_ok hw
  obtain ⟨packages, hpackages, hw⟩ := bind_eq_ok hw
  cases hw
  refine ⟨pathMap, devOnly, optionalOnly, packages, hmap, hpackages, ?_⟩
  simp [readLockfile, Json.member?, lookup_append, lookup_cons]

structure ResolvedTree (manifest : Manifest) (g : Graph) : Prop where
  version : ∀ v, manifest.version = some v → Parsed v
  versions : ∀ x v, (g.node x).version = some v → Parsed v

theorem lockClean_written_iff (htree : ResolvedTree manifest g)
    (hw : writeLockfile manifest g directory = .ok doc) :
    LockClean manifest doc ↔ manifest.Lockable ∧ ∀ x, g.Listed x → (g.node x).Complete := by
  obtain ⟨pathMap, devOnly, optionalOnly, packages, hmap, hpackages, hread⟩ :=
    readLockfile_written hw
  obtain ⟨info, hinfo, hdeps⟩ := (writeRootPackage_readable htree.version).root
  have hcomplete : (∃ locked, readLockPackages packages = .ok locked) ↔
      ∀ x, g.Listed x → (g.node x).Complete := by
    rw [readLockPackages_written hpackages fun e _ => htree.versions e.2]
    constructor
    · rintro h x ⟨pathMap', key, hmap', hkey, hget⟩
      rw [hmap] at hmap'
      cases hmap'
      exact h (key, x) (TreeMap.mem_toList_iff_getElem?_eq_some.mpr hget) hkey
    · rintro h ⟨key, x⟩ hmem hkey
      exact h x ⟨pathMap, key, hmap, hkey, TreeMap.mem_toList_iff_getElem?_eq_some.mp hmem⟩
  rw [← hcomplete, ← depsMatch_written_iff, ← hdeps]
  have hobj : ∃ ms, writeRootPackage manifest = .obj ms := ⟨_, rfl⟩
  constructor
  · rintro ⟨locked, root, hlocked, hroot, hmatch⟩
    rw [hread] at hlocked
    obtain ⟨ms, hms⟩ := hobj
    rw [hms] at hlocked hinfo
    obtain ⟨info', hinfo', hlocked⟩ := bind_eq_ok hlocked
    obtain ⟨locked', hlocked', hlocked⟩ := bind_eq_ok hlocked
    cases hlocked
    rw [hinfo] at hinfo'
    cases hinfo'
    simp at hroot
    exact ⟨hroot ▸ hmatch, locked', hlocked'⟩
  · rintro ⟨hmatch, locked, hlocked⟩
    refine ⟨("", info) :: locked, info, ?_, by simp, hmatch⟩
    obtain ⟨ms, hms⟩ := hobj
    rw [hread]
    rw [hms] at hinfo ⊢
    simp only [readLockPackages, hinfo, hlocked]
    rfl

/-- The lockfile as text: it reads back as a lockfile that agrees with the manifest
exactly if the manifest has only runtime and development dependencies and every
package has a version, a URL and an integrity. The generator and the parser are
json-glib's: the document is parsed from the text it was printed as, and from that text
with spaces in front of colons taken out between its tokens. -/
theorem lockfile_readBack_iff (toData : Json.Indent → Json → String)
    (parse : String → Result Json) (indent : Json.Indent) (htree : ResolvedTree manifest g)
    (hw : writeLockfile manifest g directory = .ok doc)
    (hintact : ∀ line ∈ Text.split (toData indent doc) '\n', Intact line)
    (hparse : ∀ text, Relation.ReflTransGen Tightened (toData indent doc) text →
      parse (text ++ "\n") = .ok doc) :
    (∃ doc', parse (generateNpmStyleJson toData indent doc) = .ok doc' ∧
        LockClean manifest doc') ↔
      manifest.Lockable ∧ ∀ x, g.Listed x → (g.node x).Complete := by
  obtain ⟨text, htext, hgenerate⟩ := generateNpmStyleJson_tightened hintact
  rw [hgenerate, hparse text htext, ← lockClean_written_iff htree hw]
  constructor
  · rintro ⟨doc', hdoc', hclean⟩
    cases hdoc'
    exact hclean
  · exact fun hclean => ⟨doc, rfl, hclean⟩

end

def exactManifest : Manifest where
  name := some "app"
  version := some ⟨1, 2, 3, some "rc.1", none⟩
  dependencies := PackageDependencies.none.add ⟨"x", "1.0.0", .runtime⟩

/-- The tree of `exactManifest`. -/
def exactGraph : Graph :=
  (addChildNode (rootGraph exactManifest) rootId ⟨"x", "1.0.0", .runtime⟩
    { name := "x"
      effectiveVersion := ⟨1, 0, 0, none, none⟩
      resolvedUrl := "https://registry.npmjs.org/x/-/x-1.0.0.tgz"
      integrity := some "sha512-"
      optionalPeers := some [] }).1

def exactLock : Json :=
  .obj [("name", .str "app"), ("version", .str "1.2.3-rc.1"), ("lockfileVersion", .int 3),
    ("requires", .bool true), ("packages", .obj [
      ("", .obj [("name", .str "app"), ("version", .str "1.2.3-rc.1"),
        ("dependencies", .obj [("x", .str "1.0.0")])]),
      ("node_modules/x", .obj [("version", .str "1.0.0"),
        ("resolved", .str "https://registry.npmjs.org/x/-/x-1.0.0.tgz"),
        ("integrity", .str "sha512-")])])]

/-- `exactLock` as it is printed. -/
def exactText : String :=
  "\n".intercalate
    ["\x7b", "  \"name\" : \"app\",", "  \"version\" : \"1.2.3-rc.1\",",
      "  \"lockfileVersion\" : 3,", "  \"requires\" : true,", "  \"packages\" : \x7b",
      "    \"\" : \x7b", "      \"name\" : \"app\",", "      \"version\" : \"1.2.3-rc.1\",",
      "      \"dependencies\" : \x7b", "        \"x\" : \"1.0.0\"", "      \x7d", "    \x7d,",
      "    \"node_modules/x\" : \x7b", "      \"version\" : \"1.0.0\",",
      "      \"resolved\" : \"https://registry.npmjs.org/x/-/x-1.0.0.tgz\",",
      "      \"integrity\" : \"sha512-\"", "    \x7d", "  \x7d", "\x7d"]

theorem exactGraph_listed (h : exactGraph.Listed x) : x = 1 := by
  have hmap : exactGraph.buildPathMap rootId =
      .ok (((∅ : TreeMap String NodeId).insert "node_modules/x" 1).insert "" rootId) := rfl
  obtain ⟨pathMap, key, hmap', hkey, hget⟩ := h
  rw [hmap] at hmap'
  cases hmap'
  rw [TreeMap.getElem?_insert, if_neg (by simpa using Ne.symm hkey),
    TreeMap.getElem?_insert] at hget
  split at hget
  · exact (Option.some.inj hget).symm
  · simp at hget

theorem lockfile_readBack_iff_exact :
    writeLockfile exactManifest exactGraph "project" = .ok exactLock ∧
      @LockClean asciiTables exactManifest exactLock := by
  let _ := asciiTables
  have hw : writeLockfile exactManifest exactGraph "project" = .ok exactLock := rfl
  have htree : ResolvedTree exactManifest exactGraph := by
    refine ⟨fun v hv => ?_, fun x v hv => ?_⟩
    · cases hv
      exact ⟨"1.2.3-rc.1", by decide +kernel⟩
    · rcases x with _ | _ | x
      · cases hv
        exact ⟨"1.2.3-rc.1", by decide +kernel⟩
      · cases hv
        exact ⟨"1.0.0", by decide +kernel⟩
      · cases hv
  have hiff := lockfile_readBack_iff (fun _ _ => exactText) (fun _ => .ok exactLock) {} htree hw
    (by decide +kernel) fun _ _ => rfl
  have hlockable : exactManifest.Lockable := by
    intro d hd
    rcases PackageDependencies.mem_values_add hd with rfl | hd
    · exact .inl rfl
    · simp [PackageDependencies.values, PackageDependencies.none] at hd
  have hcomplete : ∀ x, exactGraph.Listed x → (exactGraph.node x).Complete := by
    rintro x hx
    obtain rfl := exactGraph_listed hx
    constructor <;> exact Option.some_ne_none _
  obtain ⟨doc', hdoc, hclean⟩ := hiff.mpr ⟨hlockable, hcomplete⟩
  cases hdoc
  exact ⟨hw, hclean⟩

def optionalDependency : Json := .obj [("optionalDependencies", .obj [("x", .str "1.0.0")])]

/-- The package is installed and locked, but the root's entry does not ask for it:
the next installation resolves everything again. -/
theorem optionalDependency_unlocked : ∃ plan doc,
    installFrom [("integrity", .str "sha512-")] optionalDependency none = .ok plan ∧
    writeLockfile plan.manifest plan.graph "project" = .ok doc ∧
    ¬ @LockClean asciiTables plan.manifest doc := by
  let _ := asciiTables
  have hrun : (installFrom [("integrity", .str "sha512-")] optionalDependency none >>= fun plan => do
        let locked ← (writeLockfile plan.manifest plan.graph "project" >>= readLockfile)
        return (locked.lookup "").map fun root => depsMatch plan.manifest root.dependencies) =
      .ok (some false) := by
    decide +kernel
  obtain ⟨plan, hplan, hrun⟩ := bind_eq_ok hrun
  obtain ⟨locked, hlocked, hrun⟩ := bind_eq_ok hrun
  obtain ⟨doc, hdoc, hread⟩ := bind_eq_ok hlocked
  refine ⟨plan, doc, hplan, hdoc, ?_⟩
  rintro ⟨locked', root, hread', hroot, hmatch⟩
  rw [hread] at hread'
  cases hread'
  rw [hroot, Option.map_some, hmatch] at hrun
  cases hrun

end FridaCore.Packages
