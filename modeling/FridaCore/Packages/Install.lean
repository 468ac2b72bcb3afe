import FridaCore.Packages.Lockfile
import FridaCore.Support.Path

/-!
# Installing

`install` up to the packages it is going to download. Orphans are removed before
the tree is reified, so they are gone even if working out what to install fails.
-/

namespace FridaCore.Packages

open Semver

/-- A `MutationSpec`; installing only ever adds. -/
structure MutationSpec where
  name : String
  range : String
  role : PackageRole
  deriving DecidableEq, Repr

def parseMutationSpec (role : PackageRole) (raw : String) : Result MutationSpec :=
  match Text.splitMost raw "@" 1 with
  | name :: range :: _ => .ok ⟨name, range, role⟩
  | [name] => .ok ⟨name, "", role⟩
  | [] => .error .crash

def specRange (env : Env) (s : MutationSpec) : Result String :=
  if s.range = "" ∨ s.range = "latest" then do
    return "^" ++ (← env.fetch s.name "latest").effectiveVersion.str
  else .ok s.range

def applySpecsToManifest (env : Env) :
    List MutationSpec → Manifest → Bool → Result (Manifest × Bool)
  | [], manifest, dirty => .ok (manifest, dirty)
  | s :: rest, manifest, dirty => do
    let dep : PackageDependency := ⟨s.name, ← specRange env s, s.role⟩
    match manifest.dependencies.get? s.name with
    | some d =>
      if dep.range = d.range ∧ dep.role = d.role then applySpecsToManifest env rest manifest dirty
      else
        let dependencies := (manifest.dependencies.remove s.name).add dep
        applySpecsToManifest env rest { manifest with dependencies } true
    | none =>
      let dependencies := manifest.dependencies.add dep
      applySpecsToManifest env rest { manifest with dependencies } true

structure Platform where
  os : String
  cpu : String
  libc : String
  deriving DecidableEq, Repr

/-- The first entry that names the current platform, negated or not, decides. -/
def checkEntries (current : String) : List String → Option Bool
  | [] => none
  | entry :: rest =>
    if Text.hasPrefix entry "!" then
      if current = Text.dropFirst entry 1 then some false else checkEntries current rest
    else if current = entry then some true
    else checkEntries current rest

def checkCompatibility (current : String) (constraints : List String) : Bool :=
  (checkEntries current constraints).getD (constraints.all (Text.hasPrefix · "!"))

/-- One of the three checks of `check_compatible`. -/
def checkConstraint (n : PackageNode) (what current : String) :
    Option (List String) → Result Bool
  | none => .ok true
  | some constraints =>
    if checkCompatibility current constraints then .ok true
    else if n.isOptional then .ok false
    else
      let name := n.name.getD ""
      let version := (n.version.map SemverVersion.str).getD ""
      let requires := "/".intercalate constraints
      .error (.error (.notSupported
        (s!"Package {name}@{version} is incompatible with current {what}. " ++
          s!"Requires: {requires}, Current: {current}")))

def checkCompatible (platform : Platform) (n : PackageNode) : Result Bool := do
  if !(← checkConstraint n "OS" platform.os n.os) then return false
  if !(← checkConstraint n "CPU" platform.cpu n.cpu) then return false
  checkConstraint n "libc" platform.libc n.libc

def compatiblePaths (platform : Platform) (g : Graph) (pathMap : Std.TreeMap String NodeId) :
    List String → Result (List String)
  | [] => .ok []
  | path :: rest => do
    match pathMap[path]? with
    | none => .error .crash
    | some x =>
      let ok ← checkCompatible platform (g.node x)
      let rest ← compatiblePaths platform g pathMap rest
      return if ok then path :: rest else rest

def computePackagesToInstall (platform : Platform) (omits : List PackageRole) (g : Graph) :
    Result (List String) := do
  let pathMap ← g.buildPathMap rootId
  let all ← g.collectAllPackagePaths rootId
  let all ← (if .development ∈ omits then do
      let devOnly ← g.computeDevOnlyPackages rootId
      return all.filter (· ∉ devOnly)
    else pure all)
  let all ← (if .optional ∈ omits then do
      let optionalOnly ← g.computeOptionalOnlyPackages rootId
      return all.filter (· ∉ optionalOnly)
    else pure all)
  compatiblePaths platform g pathMap all

/-- The nodes `perform_reify_graph` starts a download for, with their paths. -/
def reifyGraph (platform : Platform) (omits : List PackageRole) (g : Graph) :
    Result (List (String × NodeId)) := do
  let toInstall ← computePackagesToInstall platform omits g
  let nodes ← (← g.preorder rootId).mapM fun x => return (← g.computePath x, x)
  return nodes.filter fun (path, _) => path ∈ toInstall

structure InstallOptions where
  specs : List String := []
  role : PackageRole := .runtime
  omits : List PackageRole := []

/-- What `install` is about to do to the file system. -/
structure InstallPlan where
  manifest : Manifest
  graph : Graph
  lockClean : Bool
  orphans : List String := []
  installs : Result (List (String × NodeId))

section
variable [UnicharTables]

/-- The decision between the locked tree and a new one; the files may not exist. -/
def install (env : Env) (bounds : Bounds) (platform : Platform) (opts : InstallOptions)
    (packageJson lockJson : Option Json) : Result InstallPlan := do
  let specs ← opts.specs.mapM (parseMutationSpec opts.role)
  let manifest ← (match packageJson with
    | some j => readManifest j
    | none => pure {})
  let (manifest, dirty) ← applySpecsToManifest env specs manifest false
  match ← lockJson.mapM readLockfile with
  | none => do
    let tree ← buildTree env bounds manifest none
    return ⟨manifest, tree.graph, false, tree.orphans, reifyGraph platform opts.omits tree.graph⟩
  | some locked =>
    let lockClean ← (if dirty then pure false
      else match locked.lookup "" with
        | some root => pure (depsMatch manifest root.dependencies)
        | none => .error .crash)
    let base ← lockToGraph manifest locked
    if lockClean then
      return ⟨manifest, base, true, [], reifyGraph platform opts.omits base⟩
    else
      let tree ← buildTree env bounds manifest (some base)
      return ⟨manifest, tree.graph, false, tree.orphans, reifyGraph platform opts.omits tree.graph⟩

end

/-- One `get_child` after the other, from the components of the project root. -/
def installDirForDependency (path : String) (projectRoot : List String) : List String :=
  projectRoot ++ Text.split path '/'

theorem parseMutationSpec_cut (back : String) (h : '@' ∉ front.toList) :
    parseMutationSpec role (front ++ "@" ++ back) = .ok ⟨front, back, role⟩ := by
  simp [parseMutationSpec, Text.splitMost, Text.splitChars, Text.cutChars_append h]

/-- A spec is taken apart at its first `@`, so the name comes back unless it has a scope. -/
theorem parseMutationSpec_iff (hname : name ≠ "") (range : String) :
    (parseMutationSpec role (name ++ "@" ++ range) = .ok ⟨name, range, role⟩ ∧
      parseMutationSpec role name = .ok ⟨name, "", role⟩) ↔ '@' ∉ name.toList := by
  refine ⟨fun h hscope => ?_, fun h => ⟨parseMutationSpec_cut range h, ?_⟩⟩
  · obtain ⟨front, back, hsplit, hfront⟩ := List.eq_append_cons_of_mem hscope
    have hcut : name = String.ofList front ++ "@" ++ String.ofList back := by
      rw [← String.toList_inj]
      simpa using hsplit
    have hparse : parseMutationSpec role name =
        .ok ⟨String.ofList front, String.ofList back, role⟩ := by
      rw [hcut]
      exact parseMutationSpec_cut _ (by simpa using hfront)
    rw [h.2] at hparse
    simp only [Except.ok.injEq, MutationSpec.mk.injEq] at hparse
    rw [hparse.1, String.toList_ofList] at hscope
    exact hfront hscope
  · simp [parseMutationSpec, Text.splitMost, Text.splitChars, hname, Text.cutChars_eq_none.mpr h]

theorem parseMutationSpec_iff_plain :
    parseMutationSpec .runtime ("name" ++ "@" ++ "^1.0.0") = .ok ⟨"name", "^1.0.0", .runtime⟩ := by
  have hplain : '@' ∉ "name".toList := by decide
  exact ((parseMutationSpec_iff (by decide) "^1.0.0").mpr hplain).1

/-- The `@` of a scope leaves no name, and the scope and the name for a range. -/
theorem scope_cut : parseMutationSpec .runtime "@scope/name@^1.0.0" =
    .ok ⟨"", "scope/name@^1.0.0", .runtime⟩ := by
  decide

end FridaCore.Packages
