import FridaCore.Packages.Model
import FridaCore.Support.Json

/-!
# Metadata in JSON

The readers and writers that manifests, lockfiles and registry responses share.
A writer is the list of members it adds to the object being built; it adds none
where the code leaves the object alone.
-/

namespace FridaCore.Packages

open Std (TreeMap)
open Semver

def readStrings (invalid : String) : List Json → Result (List String)
  | [] => .ok []
  | j :: rest =>
    match j.str? with
    | some s => do return s :: (← readStrings invalid rest)
    | none => protocol invalid

def readArrayStr (r : Json) (name : String) : Result (Option (List String)) :=
  match r.member? name with
  | none => .ok none
  | some (.arr elements) => some <$> readStrings s!"Invalid '{name}' value" elements
  | some _ => protocol s!"Invalid '{name}' field"

def readStringMembers (invalid : String → String) :
    List (String × Json) → Result (List (String × String))
  | [] => .ok []
  | (key, j) :: rest =>
    match j.str? with
    | some s => do return (key, s) :: (← readStringMembers invalid rest)
    | none => protocol (invalid key)

def readMapStrStr (r : Json) (name : String) : Result (Option (TreeMap String String)) :=
  match r.member? name with
  | none => .ok none
  | some (.obj members) => do
    let entries ← readStringMembers (fun _ => s!"Invalid '{name}' value") members
    return some (entries.foldl (fun m (k, v) => m.insert k v) ∅)
  | some _ => protocol s!"Invalid '{name}' field"

def readEngines (r : Json) : Result (Option (TreeMap String String)) := readMapStrStr r "engines"

def normalizeBinPath (path : String) : String :=
  if Text.hasPrefix path "./" then Text.dropFirst path 2 else path

/-- A single bin needs the name of the package, which a lockfile does not give. -/
def readBin (r : Json) (packageName : Option String) : Result (Option (TreeMap String String)) :=
  match r.member? "bin" with
  | none => .ok none
  | some (.obj _) => do
    return (← readMapStrStr r "bin").map fun bin => bin.map fun _ path => normalizeBinPath path
  | some j =>
    match packageName, j.str? with
    | some name, some path => .ok (some ((∅ : TreeMap String String).insert name
        (normalizeBinPath path)))
    | _, _ => protocol "Invalid 'bin' field"

def readHasInstallScript (r : Json) : Bool :=
  (r.member? "scripts").any fun scripts =>
    ["preinstall", "install", "postinstall"].any fun name => (scripts.member? name).isSome

def readOptionalPeers (r : Json) : Result (List String) :=
  match r.member? "peerDependenciesMeta" with
  | none => .ok []
  | some (.obj members) =>
    .ok ((members.filter fun (_, j) => (j.member? "optional").any Json.isTrue).map Prod.fst)
  | some _ => protocol "Invalid 'peerDependenciesMeta' field"

def readLicense (r : Json) : Option String :=
  match r.member? "license" with
  | some (.obj members) => (Json.obj members).string? "type"
  | some j => j.str?
  | none => none

def readFundingSource (j : Json) : Result FundingSource :=
  match j with
  | .obj _ =>
    match j.string? "url" with
    | some url => .ok ⟨j.string? "type", url⟩
    | none => protocol "Invalid 'funding' field"
  | .str url => .ok ⟨none, url⟩
  | _ => protocol "Invalid 'funding' field"

def readFundingSources : List Json → Result (List FundingSource)
  | [] => .ok []
  | j :: rest => do return (← readFundingSource j) :: (← readFundingSources rest)

def readFunding (r : Json) : Result (Option (List FundingSource)) :=
  match r.member? "funding" with
  | none => .ok none
  | some (.arr elements) => do
    let sources ← readFundingSources elements
    return if sources.isEmpty then none else some sources
  | some j => do return some [← readFundingSource j]

/-- One section of `read_dependencies`; later sections override earlier ones. -/
def readSection (r : Json) (deps : PackageDependencies) (key : String) (role : PackageRole) :
    Result PackageDependencies :=
  match r.member? key with
  | none => .ok deps
  | some (.obj members) => do
    let entries ← readStringMembers (fun name => s!"Invalid '{key}' entry for '{name}'") members
    return entries.foldl (fun deps (name, range) => deps.add ⟨name, range, role⟩) deps
  | some _ => protocol s!"Invalid '{key}' field"

def readDependencies (r : Json) : Result PackageDependencies := do
  let deps ← readSection r .none "devDependencies" .development
  let deps ← readSection r deps "optionalDependencies" .optional
  let deps ← readSection r deps "peerDependencies" .peer
  readSection r deps "dependencies" .runtime

section
variable [UnicharTables]

def readVersion (r : Json) : Result (Option SemverVersion) :=
  match r.string? "version" with
  | some raw => some <$> parseVersion raw
  | none => .ok none

def readManifest (r : Json) : Result Manifest := do
  return {
    name := r.string? "name"
    version := ← readVersion r
    license := readLicense r
    funding := ← readFunding r
    engines := ← readEngines r
    dependencies := ← readDependencies r }

end

/-- A package version in the registry, for a name and version already known. -/
def readPackageVersionMetadata (r : Json) (name : String) (effectiveVersion : SemverVersion) :
    Result ResolvedPackageData := do
  let dist := (r.member? "dist").getD .null
  let some resolvedUrl := dist.string? "tarball" | protocol <|
    s!"'dist.tarball' for '{name}@{effectiveVersion.str}' missing or invalid, " ++
      "or 'dist' not an object"
  return {
    name
    effectiveVersion
    resolvedUrl
    integrity := dist.string? "integrity"
    shasum := dist.string? "shasum"
    deprecated := r.string? "deprecated"
    bin := ← readBin r (some name)
    hasInstallScript := readHasInstallScript r
    optionalPeers := some (← readOptionalPeers r)
    license := readLicense r
    funding := ← readFunding r
    engines := ← readEngines r
    os := ← readArrayStr r "os"
    cpu := ← readArrayStr r "cpu"
    libc := ← readArrayStr r "libc"
    dependencies := ← readDependencies r }

def writeString (name : String) (value : Option String) : List (String × Json) :=
  (value.map fun s => (name, .str s)).toList

def writeVersion (version : Option SemverVersion) : List (String × Json) :=
  writeString "version" (version.map SemverVersion.str)

/-- `add_string_value`, which writes a null reference as a null. -/
def stringValue (value : Option String) : Json := (value.map Json.str).getD .null

def writeArrayStr (name : String) (array : Option (List String)) : List (String × Json) :=
  (array.map fun elements => (name, .arr (elements.map .str))).toList

def writeMapStrStr (map : Option (TreeMap String String)) (name : String) : List (String × Json) :=
  (map.map fun m => (name, .obj (m.toList.map fun (k, v) => (k, .str v)))).toList

def writeHasInstallScript (has : Bool) : List (String × Json) :=
  if has then [("hasInstallScript", .bool true)] else []

def fundingSource (s : FundingSource) : Json :=
  .obj (writeString "type" s.type ++ [("url", .str s.url)])

def writeFunding : Option (List FundingSource) → List (String × Json)
  | none => []
  | some [s] => [("funding", fundingSource s)]
  | some sources => [("funding", .arr (sources.map fundingSource))]

def writeOptionalPeers : Option (List String) → Result (List (String × Json))
  | none => .error .crash
  | some [] => .ok []
  | some peers => .ok
    [("peerDependenciesMeta", .obj (peers.map fun p => (p, .obj [("optional", .bool true)])))]

def writeDependenciesSection (key : String) (deps : List PackageDependency) :
    List (String × Json) :=
  if deps.isEmpty then [] else [(key, .obj (deps.map fun d => (d.name, .str d.range)))]

end FridaCore.Packages
