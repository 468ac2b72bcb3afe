import FridaCore.Packages.Integrity

/-!
# Where an installation writes

The directories `install` removes and installs into are put together from
package names, which nothing checks. A package named `..` takes the place of
what `node_modules` is in, and that is replaced by its archive.
-/

namespace FridaCore.Packages

open List Option

/-- Followed from a project root, the path leads strictly below its `node_modules`. -/
def confinedPath (path : String) : Bool :=
  match Path.relative (Text.split path '/') with
  | ⟨0, "node_modules" :: _ :: _⟩ => true
  | _ => false

def confinedName (name : String) : Bool := confinedPath ("node_modules/" ++ name)

/-- The paths of what is removed and of what is installed. -/
def InstallPlan.paths (plan : InstallPlan) : List String := plan.orphans ++ plan.jobs.map Prod.fst

/-- Everything removed or installed is strictly below `node_modules`. -/
def InstallPlan.Confined (projectRoot : List String) (plan : InstallPlan) : Prop :=
  ∀ path ∈ plan.paths,
    Path.Below (projectRoot ++ ["node_modules"]) (installDirForDependency path projectRoot)

theorem confinedPath_iff : confinedPath path ↔ ∃ rest, rest ≠ [] ∧
    Path.relative (Text.split path '/') = ⟨0, "node_modules" :: rest⟩ := by
  unfold confinedPath
  split
  · rename_i first rest heq
    exact ⟨fun _ => ⟨_, cons_ne_nil first rest, heq⟩, fun _ => rfl⟩
  · rename_i hno
    refine ⟨fun h => by simp at h, ?_⟩
    rintro ⟨rest, hne, heq⟩
    obtain ⟨first, rest, rfl⟩ := exists_cons_of_ne_nil hne
    exact absurd heq (hno first rest)

theorem follow_confined (h : confinedName name) (dir : List String) : ∃ rest, rest ≠ [] ∧
    (Text.split ("node_modules/" ++ name) '/').foldl Path.follow dir =
      dir ++ "node_modules" :: rest := by
  obtain ⟨rest, hne, heq⟩ := confinedPath_iff.mp h
  exact ⟨rest, hne, by simp [Path.foldl_follow, heq, Path.Relative.resolve]⟩

theorem follow_confined_path (hns : ns ≠ []) (h : ∀ n ∈ ns, confinedName n)
    (dir : List String) : ∃ rest, rest ≠ [] ∧
      (ns.flatMap fun n => Text.split ("node_modules/" ++ n) '/').foldl Path.follow dir =
        dir ++ "node_modules" :: rest := by
  induction ns generalizing dir with
  | nil => exact absurd rfl hns
  | cons n ns ih =>
    obtain ⟨hn, hrest⟩ := forall_mem_cons.mp h
    obtain ⟨rest, hne, heq⟩ := follow_confined hn dir
    rw [flatMap_cons, foldl_append, heq]
    cases ns with
    | nil => exact ⟨rest, hne, rfl⟩
    | cons n' ns =>
      obtain ⟨rest', -, heq'⟩ := ih (cons_ne_nil _ _) hrest (dir ++ "node_modules" :: rest)
      exact ⟨rest ++ "node_modules" :: rest', by simp, by rw [heq']; simp⟩

theorem normalize_nodeModules (projectRoot : List String) :
    Path.normalize (projectRoot ++ ["node_modules"]) =
      Path.normalize projectRoot ++ ["node_modules"] := by
  rw [Path.normalize_append]
  rfl

/-- A relative path that leads below `node_modules` from two directories does not
go up first. -/
theorem relative_of_below {r : Path.Relative}
    (ha : r.resolve ["a"] = ["a", "node_modules"] ++ rest)
    (hb : r.resolve ["b"] = ["b", "node_modules"] ++ rest') :
    r = ⟨0, "node_modules" :: rest⟩ := by
  obtain ⟨ups, down⟩ := r
  cases ups with
  | zero => simpa [Path.Relative.resolve] using ha
  | succ ups =>
    simp only [Path.Relative.resolve, rdrop] at ha hb
    simp_all

/-- A path leads below `node_modules` wherever the project is exactly if it is confined. -/
theorem below_iff_confinedPath : (∀ projectRoot, Path.Below (projectRoot ++ ["node_modules"])
    (installDirForDependency path projectRoot)) ↔ confinedPath path := by
  constructor
  · intro h
    obtain ⟨rest, hne, ha⟩ := h ["a"]
    obtain ⟨rest', -, hb⟩ := h ["b"]
    rw [installDirForDependency, Path.normalize_append, Path.foldl_follow] at ha hb
    exact confinedPath_iff.mpr ⟨rest, hne, relative_of_below ha hb⟩
  · intro h projectRoot
    obtain ⟨rest, hne, heq⟩ := confinedPath_iff.mp h
    refine ⟨rest, hne, ?_⟩
    rw [installDirForDependency, Path.normalize_append, Path.foldl_follow, heq,
      normalize_nodeModules]
    simp [Path.Relative.resolve]

theorem confinedPath_of_names (hns : ns ≠ []) (h : ∀ n ∈ ns, confinedName n) :
    confinedPath ("/".intercalate (ns.map ("node_modules/" ++ ·))) := by
  refine below_iff_confinedPath.mp fun projectRoot => ?_
  obtain ⟨rest, hrest, heq⟩ := follow_confined_path hns h (Path.normalize projectRoot)
  refine ⟨rest, hrest, ?_⟩
  rw [installDirForDependency, show "/" = String.ofList ['/'] from rfl,
    Text.split_intercalate (by simp), flatMap_map, Path.normalize_append, heq,
    normalize_nodeModules]
  simp

/-- A lockfile that agrees with an empty manifest and locks a package, of the
tarball whose digest is given. -/
def lockOf (path : String) : Json :=
  .obj [("packages", .obj [("", .obj []), (path, .obj [
    ("version", .str "1.0.0"),
    ("resolved", .str "https://registry.npmjs.org/x/-/x-1.0.0.tgz"),
    smallTarIntegrity])])]

end FridaCore.Packages
