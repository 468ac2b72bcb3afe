import FridaCore.Packages.GraphLaws
import FridaCore.Packages.Lockfile
import FridaCore.Packages.SemverLaws

/-!
# Reading back what was written

A record written into a lockfile can be read back once it has the members the
reader insists on. The dependencies read back for the root are those that were
written for it, which are the runtime and development ones.
-/

namespace FridaCore.Packages

open List Option Json

open Std (TreeMap)
open Semver

variable {k name key : String}

@[simp] theorem lookup_singleton :
    [(name, j)].lookup k = if k = name then some j else none := by
  by_cases h : k = name
  · simp [h]
  · simp [lookup, beq_false_of_ne h, h]

theorem lookup_toList_map (o : Option α) (f : α → Json) :
    ((o.map fun a => (name, f a)).toList).lookup k = if k = name then o.map f else none := by
  cases o with
  | none => simp
  | some a => exact lookup_singleton

@[simp] theorem lookup_writeString : (writeString name v).lookup k =
    if k = name then v.map .str else none := lookup_toList_map v _

@[simp] theorem lookup_writeVersion : (writeVersion v).lookup k =
    if k = "version" then v.map fun v => .str v.str else none := by
  simp only [writeVersion, lookup_writeString, Option.map_map]
  rfl

@[simp] theorem lookup_writeArrayStr : (writeArrayStr name a).lookup k =
    if k = name then a.map fun es => .arr (es.map .str) else none := lookup_toList_map a _

@[simp] theorem lookup_writeMapStrStr : (writeMapStrStr m name).lookup k =
    if k = name then m.map fun m => .obj (m.toList.map fun (k, v) => (k, .str v)) else none :=
  lookup_toList_map m _

@[simp] theorem lookup_writeHasInstallScript : (writeHasInstallScript has).lookup k =
    if k = "hasInstallScript" ∧ has then some (.bool true) else none := by
  cases has <;> by_cases h : k = "hasInstallScript" <;> simp [writeHasInstallScript, h]

def fundingJson : List FundingSource → Json
  | [s] => fundingSource s
  | sources => .arr (sources.map fundingSource)

@[simp] theorem lookup_writeFunding : (writeFunding funding).lookup k =
    if k = "funding" then funding.map fundingJson else none := by
  rcases funding with _ | _ | ⟨s, _ | ⟨s', rest⟩⟩ <;> by_cases h : k = "funding" <;>
    simp [writeFunding, fundingJson, h]

@[simp] theorem lookup_writeDependenciesSection : (writeDependenciesSection key deps).lookup k =
    if k = key ∧ deps ≠ [] then some (.obj (deps.map fun d => (d.name, .str d.range)))
    else none := by
  cases deps <;> by_cases h : k = key <;> simp [writeDependenciesSection, h]

theorem lookup_writeFlags (hk : k ≠ "dev") (hk' : k ≠ "optional") :
    (writeFlags devOnly optionalOnly key).lookup k = none := by
  unfold writeFlags
  split
  · simp [hk]
  · split
    · simp [hk']
    · rfl

theorem lookup_writeOptionalPeers (h : writeOptionalPeers peers = .ok members) :
    members.lookup k = if k = "peerDependenciesMeta" then members.lookup "peerDependenciesMeta"
      else none := by
  unfold writeOptionalPeers at h
  split at h
  · cases h
  · cases h
    simp
  · cases h
    by_cases hk : k = "peerDependenciesMeta" <;> simp [hk]

theorem readStrings_map (invalid : String) (es : List String) :
    readStrings invalid (es.map .str) = .ok es := by
  induction es with
  | nil => rfl
  | cons e es ih =>
    simp only [map_cons, readStrings, str?, ih]
    rfl

theorem readStringMembers_map (invalid : String → String) (ms : List (String × String)) :
    readStringMembers invalid (ms.map fun (k, v) => (k, .str v)) = .ok ms := by
  induction ms with
  | nil => rfl
  | cons m ms ih =>
    simp only [map_cons, readStringMembers, str?, ih]
    rfl

theorem readFundingSource_fundingSource (s : FundingSource) :
    readFundingSource (fundingSource s) = .ok s := by
  obtain ⟨type, url⟩ := s
  have hurl : (fundingSource ⟨type, url⟩).string? "url" = some url := by
    simp [fundingSource, string?, member?, lookup_append, str?]
  have htype : (fundingSource ⟨type, url⟩).string? "type" = type := by
    cases type <;> simp [fundingSource, string?, member?, lookup_append, str?]
  simp only [readFundingSource, hurl, htype]
  rfl

theorem readFundingSources_map (sources : List FundingSource) :
    readFundingSources (sources.map fundingSource) = .ok sources := by
  induction sources with
  | nil => rfl
  | cons s sources ih =>
    simp only [map_cons, readFundingSources, readFundingSource_fundingSource, ih]
    rfl

variable {r : Json}

theorem readArrayStr_written (h : r.member? name = a.map fun es => .arr (es.map .str)) :
    readArrayStr r name = .ok a := by
  cases a with
  | none => simp [readArrayStr, h]
  | some es => simp [readArrayStr, h, readStrings_map]

theorem readMapStrStr_written (m : Option (TreeMap String String))
    (h : r.member? name = m.map fun m => .obj (m.toList.map fun (k, v) => (k, .str v))) :
    ∃ m', readMapStrStr r name = .ok m' := by
  cases m with
  | none => exact ⟨none, by simp [readMapStrStr, h]⟩
  | some m =>
    simp only [readMapStrStr, h, map_some, readStringMembers_map]
    exact ⟨_, rfl⟩

theorem readBin_written (m : Option (TreeMap String String))
    (h : r.member? "bin" = m.map fun m => .obj (m.toList.map fun (k, v) => (k, .str v))) :
    ∃ m', readBin r none = .ok m' := by
  obtain ⟨m', hm⟩ := readMapStrStr_written m h
  cases m with
  | none => exact ⟨none, by simp [readBin, h]⟩
  | some m =>
    simp only [readBin, h, map_some, hm]
    exact ⟨_, rfl⟩

theorem readFunding_written (funding : Option (List FundingSource))
    (h : r.member? "funding" = funding.map fundingJson) :
    ∃ funding', readFunding r = .ok funding' := by
  unfold readFunding
  rw [h]
  rcases funding with _ | _ | ⟨s, _ | ⟨s', rest⟩⟩
  · exact ⟨none, rfl⟩
  · exact ⟨none, rfl⟩
  · refine ⟨some [s], ?_⟩
    change (do return some [← readFundingSource (fundingSource s)]) = _
    rw [readFundingSource_fundingSource]
    rfl
  · refine ⟨some (s :: s' :: rest), ?_⟩
    change (do
      let sources ← readFundingSources ((s :: s' :: rest).map fundingSource)
      return if sources.isEmpty then none else some sources) = _
    rw [readFundingSources_map]
    rfl

theorem readOptionalPeers_written (h : writeOptionalPeers peers = .ok members)
    (hr : r.member? "peerDependenciesMeta" = members.lookup "peerDependenciesMeta") :
    ∃ peers', readOptionalPeers r = .ok peers' := by
  unfold writeOptionalPeers at h
  unfold readOptionalPeers
  split at h <;> cases h <;> rw [hr] <;> exact ⟨_, rfl⟩

/-- A section that was written for dependencies of its role gives them back. -/
theorem readSection_written (h : r.member? key = (writeDependenciesSection key ds).lookup key)
    (hrole : ∀ d ∈ ds, d.role = role) (deps : PackageDependencies) :
    readSection r deps key role = .ok (ds.foldl .add deps) := by
  cases ds with
  | nil => simp [readSection, h]
  | cons d ds =>
    have hmembers : readStringMembers (fun name => s!"Invalid '{key}' entry for '{name}'")
        ((d :: ds).map fun d => (d.name, .str d.range)) =
          .ok ((d :: ds).map fun d => (d.name, d.range)) := by
      rw [← readStringMembers_map, List.map_map]
      rfl
    have hadd : ((d :: ds).map fun d => (d.name, d.range)).foldl
        (fun deps (name, range) => deps.add ⟨name, range, role⟩) deps =
          (d :: ds).foldl .add deps := by
      rw [List.foldl_map]
      refine List.foldl_ext _ _ _ fun deps d hd => ?_
      rw [← hrole d hd]
    simp only [readSection, h, lookup_writeDependenciesSection, ne_eq, List.cons_ne_nil,
      not_false_eq_true, and_self, if_true, hmembers]
    exact congrArg Except.ok hadd

theorem role_of_mem_withRole {deps : PackageDependencies}
    (h : d ∈ deps.withRole role) : d.role = role := by
  simpa using (mem_filter.mp h).2

theorem readDependencies_written (dev opt peer run : List PackageDependency)
    (hdev : r.member? "devDependencies" =
      (writeDependenciesSection "devDependencies" dev).lookup "devDependencies")
    (hopt : r.member? "optionalDependencies" =
      (writeDependenciesSection "optionalDependencies" opt).lookup "optionalDependencies")
    (hpeer : r.member? "peerDependencies" =
      (writeDependenciesSection "peerDependencies" peer).lookup "peerDependencies")
    (hrun : r.member? "dependencies" =
      (writeDependenciesSection "dependencies" run).lookup "dependencies")
    (hroles : (∀ d ∈ dev, d.role = .development) ∧ (∀ d ∈ opt, d.role = .optional) ∧
      (∀ d ∈ peer, d.role = .peer) ∧ ∀ d ∈ run, d.role = .runtime) :
    readDependencies r = .ok (run.foldl .add (peer.foldl .add (opt.foldl .add
      (dev.foldl .add .none)))) := by
  obtain ⟨hdev', hopt', hpeer', hrun'⟩ := hroles
  simp only [readDependencies, readSection_written hdev hdev', readSection_written hopt hopt',
    readSection_written hpeer hpeer', readSection_written hrun hrun']
  rfl

structure Readable [UnicharTables] (r : Json) (deps : PackageDependencies) : Prop where
  version : ∀ raw, r.string? "version" = some raw → ∃ v, parseVersion raw = .ok v
  dependencies : readDependencies r = .ok deps
  optionalPeers : ∃ peers, readOptionalPeers r = .ok peers
  bin : ∃ bin, readBin r none = .ok bin
  funding : ∃ funding, readFunding r = .ok funding
  engines : ∃ engines, readEngines r = .ok engines
  os : ∃ os, readArrayStr r "os" = .ok os
  cpu : ∃ cpu, readArrayStr r "cpu" = .ok cpu
  libc : ∃ libc, readArrayStr r "libc" = .ok libc

theorem requireMember_ok (hkey : key ≠ "") :
    (∃ v, requireMember key name o = .ok v) ↔ o.isSome := by
  cases o with
  | none => simp [requireMember, hkey, protocol]
  | some s => simp [requireMember]

theorem readLockSource_ok (hkey : key ≠ "") :
    (∃ s, readLockSource key name r = .ok s) ↔ (r.string? name).isSome := by
  rw [readLockSource, if_neg hkey, requireMember_ok hkey]

section
variable [UnicharTables] {deps : PackageDependencies}

theorem readLockPackage_parts (h : readLockPackage key r = .ok info) :
    (∃ v, readLockVersion key r = .ok v) ∧ (∃ s, readLockSource key "resolved" r = .ok s) ∧
      ∃ s, readLockSource key "integrity" r = .ok s := by
  obtain ⟨version, hversion, h⟩ := bind_eq_ok h
  iterate 8 obtain ⟨_, -, h⟩ := bind_eq_ok h
  obtain ⟨resolved, hresolved, h⟩ := bind_eq_ok h
  obtain ⟨integrity, hintegrity, -⟩ := bind_eq_ok h
  exact ⟨⟨_, hversion⟩, ⟨_, hresolved⟩, ⟨_, hintegrity⟩⟩

section
variable (h : Readable r deps)
include h

theorem Readable.read (hversion : ∃ v, readLockVersion key r = .ok v)
    (hresolved : ∃ s, readLockSource key "resolved" r = .ok s)
    (hintegrity : ∃ s, readLockSource key "integrity" r = .ok s) :
    ∃ info, readLockPackage key r = .ok info ∧ info.dependencies = deps := by
  obtain ⟨version, hversion⟩ := hversion
  obtain ⟨resolved, hresolved⟩ := hresolved
  obtain ⟨integrity, hintegrity⟩ := hintegrity
  obtain ⟨peers, hpeers⟩ := h.optionalPeers
  obtain ⟨bin, hbin⟩ := h.bin
  obtain ⟨funding, hfunding⟩ := h.funding
  obtain ⟨engines, hengines⟩ := h.engines
  obtain ⟨os, hos⟩ := h.os
  obtain ⟨cpu, hcpu⟩ := h.cpu
  obtain ⟨libc, hlibc⟩ := h.libc
  simp only [readLockPackage, hversion, h.dependencies, hpeers, hbin, hfunding, hengines, hos, hcpu,
    hlibc, hresolved, hintegrity]
  exact ⟨_, rfl, rfl⟩

theorem Readable.version_some (hraw : r.string? "version" = some raw) :
    ∃ v, readLockVersion key r = .ok v := by
  obtain ⟨v, hv⟩ := h.version raw hraw
  exact ⟨some v, by simp only [readLockVersion, hraw, requireMember, bind, Except.bind, hv]; rfl⟩

theorem Readable.root : ∃ info, readLockPackage "" r = .ok info ∧ info.dependencies = deps := by
  refine h.read ?_ ⟨none, rfl⟩ ⟨none, rfl⟩
  cases hraw : r.string? "version" with
  | none => exact ⟨none, by simp only [readLockVersion, hraw]; rfl⟩
  | some raw => exact h.version_some hraw

theorem Readable.package (hkey : key ≠ "") :
    (∃ info, readLockPackage key r = .ok info) ↔ (r.string? "version").isSome ∧
      (r.string? "resolved").isSome ∧ (r.string? "integrity").isSome := by
  constructor
  · rintro ⟨info, hinfo⟩
    obtain ⟨⟨v, hv⟩, hresolved, hintegrity⟩ := readLockPackage_parts hinfo
    obtain ⟨o, ho, -⟩ := bind_eq_ok hv
    exact ⟨(requireMember_ok hkey).mp ⟨o, ho⟩, (readLockSource_ok hkey).mp hresolved,
      (readLockSource_ok hkey).mp hintegrity⟩
  · rintro ⟨hversion, hresolved, hintegrity⟩
    obtain ⟨raw, hraw⟩ := isSome_iff_exists.mp hversion
    obtain ⟨info, hinfo, -⟩ := h.read (h.version_some hraw) ((readLockSource_ok hkey).mpr hresolved)
      ((readLockSource_ok hkey).mpr hintegrity)
    exact ⟨info, hinfo⟩

end

theorem version_written (version : Option SemverVersion)
    (hr : r.member? "version" = version.map fun v => .str v.str)
    (hv : ∀ v, version = some v → Parsed v) :
    ∀ raw, r.string? "version" = some raw → ∃ v, parseVersion raw = .ok v := by
  intro raw hraw
  cases version with
  | none => simp [string?, hr] at hraw
  | some v =>
    obtain ⟨text, htext⟩ := hv v rfl
    have heq : v.str = raw := by simpa [string?, hr, str?] using hraw
    exact ⟨v, heq ▸ parseVersion_str htext⟩

def PackageDependencies.written (deps : PackageDependencies) : PackageDependencies :=
  (deps.withRole .runtime).foldl .add ((deps.withRole .development).foldl .add .none)

theorem writeRootPackage_readable (hv : ∀ v, manifest.version = some v → Parsed v) :
    Readable (writeRootPackage manifest) manifest.dependencies.written := by
  refine ⟨version_written manifest.version ?_ hv, readDependencies_written _ [] [] _ ?_ ?_ ?_ ?_
    ⟨fun _ => role_of_mem_withRole, by simp, by simp, fun _ => role_of_mem_withRole⟩,
    ⟨[], ?_⟩, readBin_written none ?_, readFunding_written manifest.funding ?_,
    readMapStrStr_written manifest.engines ?_, ⟨none, readArrayStr_written ?_⟩,
    ⟨none, readArrayStr_written ?_⟩, ⟨none, readArrayStr_written ?_⟩⟩ <;>
    simp [readOptionalPeers, writeRootPackage, member?, lookup_append]

/-- A record that could be written can be read as far as the members it may have
go, and says what it was written for. -/
theorem writePackage_readable
    (hw : writePackage (writeFlags devOnly optionalOnly key) pn = .ok r)
    (hv : ∀ v, pn.version = some v → Parsed v) :
    (∃ deps, Readable r deps) ∧ r.string? "version" = pn.version.map (·.str) ∧
      r.string? "resolved" = pn.resolved ∧ r.string? "integrity" = pn.integrity := by
  obtain ⟨peers, hpeers, hw⟩ := bind_eq_ok hw
  cases hw
  have hmeta : ∀ k, k ≠ "peerDependenciesMeta" → peers.lookup k = none := by
    intro k hk
    rw [lookup_writeOptionalPeers hpeers, if_neg hk]
  refine ⟨⟨(pn.dependencies.withRole .runtime).foldl .add ((pn.dependencies.withRole .peer).foldl .add
    ((pn.dependencies.withRole .optional).foldl .add .none)), ?_⟩, ?_, ?_, ?_⟩
  · refine ⟨version_written pn.version ?_ hv, readDependencies_written [] _ _ _ ?_ ?_ ?_ ?_
      ⟨by simp, fun _ => role_of_mem_withRole, fun _ => role_of_mem_withRole,
        fun _ => role_of_mem_withRole⟩, readOptionalPeers_written hpeers ?_,
      readBin_written pn.bin ?_, readFunding_written pn.funding ?_,
      readMapStrStr_written pn.engines ?_, ⟨pn.os, readArrayStr_written ?_⟩,
      ⟨pn.cpu, readArrayStr_written ?_⟩, ⟨pn.libc, readArrayStr_written ?_⟩⟩ <;>
      simp [member?, lookup_append, lookup_cons, lookup_writeFlags, hmeta]
  · cases pn.version <;>
      simp [string?, member?, lookup_append, lookup_writeFlags, hmeta, str?,
        lookup_cons]
  · cases pn.resolved <;>
      simp [string?, member?, lookup_append, stringValue, str?]
  · cases pn.integrity <;>
      simp [string?, member?, lookup_append, lookup_cons, stringValue, str?]

end

end FridaCore.Packages
