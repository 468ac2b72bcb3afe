import FridaCore.Packages.Metadata
import FridaCore.Packages.PlanProvenance
import FridaCore.Packages.Reify

/-!
# Checking what is downloaded

`fetch_and_resolve_package_data` asks the registry for a precise range directly, and
looks any other up among the tags and then the versions of the packument.

The digest to expect starts out in a registry response or a lockfile entry and
has to reach the download of the node made from it. The integrity string does;
the shasum is lost when the node is made, so a package for which only a shasum
is published is installed unchecked.
-/

namespace FridaCore.Packages

open Semver

structure Registry where
  version : String → String → Result Json
  packument : String → Result Json

section
variable [UnicharTables]

def effectiveVersion (packument : Json) (name range : String) : Result String :=
  match packument.member? "dist-tags" with
  | none => protocol "Registry entry missing 'dist-tags' field"
  | some tags =>
    match tags.string? range, packument.member? "versions" with
    | some tagged, _ => .ok tagged
    | none, some (.obj (v :: versions)) => do
      match ← maxSatisfying ((v :: versions).map Prod.fst) range with
      | some best => return best
      | none => protocol s!"No version satisfying '{range}' for '{name}'"
    | none, _ =>
      protocol s!"Packument 'versions' missing, not an object, or empty for '{name}'"

def versionObject (packument : Json) (name version : String) : Result Json :=
  let r := ((packument.member? "versions").bind (·.member? version)).getD .null
  if r.string? "version" = some version then .ok r
  else
    let fetched := (r.string? "version").getD "null"
    protocol <| s!"Version object for '{name}@{version}' missing, invalid, or its 'version' " ++
      s!"field is incorrect/missing. Fetched: '{fetched}', Expected: '{version}'"

def fetchMetadata (registry : Registry) (name range : String) : Result (String × Json) := do
  if isPreciseRange range then
    let r ← registry.version name range
    match r.string? "version" with
    | some version => return (version, r)
    | none => protocol s!"Registry 'version' for '{name}@{range}' missing or invalid"
  else
    let packument ← registry.packument name
    let version ← effectiveVersion packument name range
    return (version, ← versionObject packument name version)

def fetchAndResolvePackageData (registry : Registry) (name range : String) :
    Result ResolvedPackageData := do
  let (version, r) ← fetchMetadata registry name range
  readPackageVersionMetadata r name (← parseVersion version)

end

theorem readPackageVersionMetadata_published
    (h : readPackageVersionMetadata r name version = .ok data) :
    data.name = name ∧ data.effectiveVersion = version ∧
      data.integrity = ((r.member? "dist").getD .null).string? "integrity" ∧
      data.shasum = ((r.member? "dist").getD .null).string? "shasum" := by
  simp only [readPackageVersionMetadata] at h
  split at h
  · repeat' obtain ⟨_, -, h⟩ := bind_eq_ok h
    cases h
    exact ⟨rfl, rfl, rfl, rfl⟩
  · cases h

theorem fetchAndResolvePackageData_name [UnicharTables]
    (h : fetchAndResolvePackageData registry name range = .ok data) : data.name = name := by
  obtain ⟨_, -, h⟩ := bind_eq_ok h
  obtain ⟨_, -, h⟩ := bind_eq_ok h
  exact (readPackageVersionMetadata_published h).1

/-- Resolving against a registry, with hash sets iterated over in the order they
were filled in. -/
def Env.ofRegistry [UnicharTables] (registry : Registry) : Env where
  fetch := fetchAndResolvePackageData registry
  fetch_name _ _ _ := fetchAndResolvePackageData_name
  hashOrder := id
  hashOrder_perm := List.Perm.refl

/-- What was published for a node is what its origin says: the version object
in the registry, the entry in the lockfile, or nothing, for a directory in the
lockfile that has no entry. -/
inductive PublishedBy [UnicharTables] (registry : Registry) (lockJson : Option Json)
    (n : PackageNode) : Prop
  | registry : fetchMetadata registry name range = .ok (version, r) → n.name = some name →
      n.version.map Except.ok = some (Semver.parseVersion version) →
      n.published = ⟨((r.member? "dist").getD .null).string? "integrity",
        ((r.member? "dist").getD .null).string? "shasum"⟩ → PublishedBy registry lockJson n
  | lock : lockJson = some j → readLockfile j = .ok locked → (key, pkg) ∈ locked →
      n.version = pkg.version → n.published = ⟨pkg.integrity, none⟩ →
      PublishedBy registry lockJson n
  | bare : n.version = none → n.published = {} → PublishedBy registry lockJson n

structure Carried [UnicharTables] (registry : Registry) (lockJson : Option Json)
    (n : PackageNode) : Prop where
  origin : PublishedBy registry lockJson n
  integrity : n.integrity = n.published.integrity
  shasum : n.shasum = none

section
variable [UnicharTables] {env : Env} {registry : Registry}

theorem carried_of_fetched (hf : fetchAndResolvePackageData registry name range = .ok data)
    (hname : n.name = some data.name) (hversion : n.version = some data.effectiveVersion)
    (hintegrity : n.integrity = data.integrity) (hshasum : n.shasum = none)
    (hpublished : n.published = ⟨data.integrity, data.shasum⟩) :
    Carried registry lockJson n := by
  obtain ⟨⟨version, r⟩, hr, hf⟩ := bind_eq_ok hf
  obtain ⟨v, hv, hf⟩ := bind_eq_ok hf
  obtain ⟨rfl, rfl, hi, hs⟩ := readPackageVersionMetadata_published hf
  exact ⟨.registry hr hname (by simp [hversion, hv]) (by rw [hpublished, hi, hs]),
    by rw [hpublished, hintegrity], hshasum⟩

theorem feeds_carried (henv : env.fetch = fetchAndResolvePackageData registry) :
    Feeds env lockJson (Carried registry lockJson) where
  admits :=
    { node := fun _ _ _ _ hf => carried_of_fetched (henv ▸ hf) rfl rfl rfl rfl rfl
      subtreeRoot := fun _ _ _ hf => carried_of_fetched (henv ▸ hf) rfl rfl rfl rfl rfl }
  lock _ _ hj hl _ hentry _ _ _ :=
    ⟨fun _ _ => ⟨.bare rfl rfl, rfl, rfl⟩,
      fun _ hn => ⟨.lock hj hl hentry rfl rfl, rfl, hn.shasum⟩⟩

end

/-- The digest of the bytes is the one published: the integrity where there is
one, otherwise the shasum. -/
def Published.Matches (codecs : Codecs) (bytes : List UInt8) (p : Published) : Prop :=
  match p.integrity, p.shasum with
  | some integrity, _ => ∃ algo name expected,
      parseIntegrity codecs integrity = .ok (algo, name, expected) ∧
      codecs.digest algo bytes = expected
  | none, some shasum => codecs.hex (codecs.digest .sha1 bytes) = down shasum
  | none, none => True

namespace Reification

section
variable (codecs : Codecs) (plan : InstallPlan) (projectRoot : List String) (files : Files E)
  (es : List (ReifyEvent E))

/-- The step leaves what is at the destination of the job as it is. -/
def Leaves (job : Job) (s t : Reification E) : Prop :=
  ∀ path, (destRoot projectRoot job.1).isPrefixOf path → t.files path = s.files path

/-- The step moves the package into place or changes what is there. -/
def Touches (job : Job) (s : Reification E) (e : ReifyEvent E) (t : Reification E) : Prop :=
  (∃ loaded, e = .move job true loaded) ∨ ¬ Leaves projectRoot job s t

abbrev Takes : Reification E → ReifyEvent E → Reification E → Prop :=
  Machine.Taken (step codecs plan projectRoot) (start plan files) es

/-- What moves into place has the digest published, and where an archive has
another, nothing changes at its destination. -/
structure Enforced (final : Reification E) : Prop where
  moved : ∀ s job loaded t, Takes codecs plan projectRoot files es s (.move job true loaded) t →
    ∀ bytes, (s.stage job).bytes = some bytes → (plan.published job).Matches codecs bytes
  untouched : ∀ job ∈ plan.jobs, ∀ bytes, (final.stage job).bytes = some bytes →
    ¬ (plan.published job).Matches codecs bytes →
    ∀ s e t, Takes codecs plan projectRoot files es s e t → Leaves projectRoot job s t

/-- An archive that gets to its destination and for which a shasum is published,
but no integrity, has that shasum. Where one does not have the digest published,
nothing else changes what is at its destination. -/
structure Checked (final : Reification E) : Prop where
  shasum : ∀ s e t job, Takes codecs plan projectRoot files es s e t → e.job = some job →
    Touches projectRoot job s e t → ∀ bytes, (s.stage job).bytes = some bytes →
      (plan.published job).integrity = none → (plan.published job).shasum ≠ none →
      (plan.published job).Matches codecs bytes
  apart : ∀ job ∈ plan.jobs, ∀ bytes, (final.stage job).bytes = some bytes →
    ¬ (plan.published job).Matches codecs bytes →
    ∀ s e t, Takes codecs plan projectRoot files es s e t → e.job ≠ some job →
      Leaves projectRoot job s t

/-- How a job goes on. -/
inductive Advances (job : Job) : Stage → Stage → Prop
  | settle : Advances job .waiting (.settled ok bytes)
  | unpack : job ∈ plan.jobs → (plan.expected job).Matches codecs bytes →
      Advances job .waiting (.unpacked bytes)
  | clear : Advances job (.unpacked bytes) (.cleared bytes)
  | stop : Advances job (.unpacked bytes) (.settled false (some bytes))
  | move : Advances job (.cleared bytes) (.settled ok (some bytes))

/-- What is going to be moved passed the check against what its node has. -/
def Vetted (s : Reification E) : Prop :=
  ∀ job bytes, s.stage job = .unpacked bytes ∨ s.stage job = .cleared bytes → job ∈ plan.jobs ∧
    (plan.expected job).Matches codecs bytes

end

end Reification

variable {codecs : Codecs} {plan : InstallPlan} {projectRoot : List String}

theorem checkDigest_ok (hexpected : integrity.mapM (parseIntegrity codecs) = .ok expected)
    (h : checkDigest codecs url bytes expected shasum = .ok ()) :
    Published.Matches codecs bytes ⟨integrity, shasum⟩ := by
  cases integrity with
  | none =>
    cases hexpected
    cases shasum with
    | none => trivial
    | some shasum =>
      simp only [checkDigest] at h
      split at h
      · cases h
      · rename_i heq
        exact not_not.mp heq
  | some integrity =>
    obtain ⟨⟨algo, name, digest⟩, hparse, heq⟩ := bind_eq_ok hexpected
    cases heq
    refine ⟨algo, name, digest, hparse, ?_⟩
    simp only [checkDigest] at h
    split at h
    · cases h
    · split at h
      · cases h
      · rename_i heq
        exact not_not.mp heq

theorem fetchArchive_ok {transfer : Transfer Dir}
    (h : fetchArchive codecs transfer url integrity shasum = .ok (bytes, archive)) :
    Published.Matches codecs bytes ⟨integrity, shasum⟩ := by
  obtain ⟨bytes', -, h⟩ := bind_eq_ok h
  obtain ⟨expected, hexpected, h⟩ := bind_eq_ok h
  obtain ⟨archive', -, h⟩ := bind_eq_ok h
  obtain ⟨⟨⟩, hcheck, h⟩ := bind_eq_ok h
  cases h
  exact checkDigest_ok hexpected hcheck

namespace Reification

variable {s t : Reification E}

theorem put_tempDestRoot (hdest : dest ≠ []) (hpath : dest.isPrefixOf path)
    (files contents : Files E) : files.put (tempDestRoot dest) contents path = files path := by
  obtain ⟨front, last, rfl⟩ := List.eq_nil_or_concat' dest |>.resolve_left hdest
  obtain ⟨rest, rfl⟩ := List.isPrefixOf_iff_prefix.mp hpath
  refine if_neg fun htemp => ?_
  obtain ⟨rest', heq⟩ := List.isPrefixOf_iff_prefix.mp htemp
  simp only [tempDestRoot, List.dropLast_concat, List.append_assoc, List.append_cancel_left_eq,
    List.cons_append, List.nil_append, List.cons.injEq] at heq
  have hlength := congrArg String.length heq.1
  simp at hlength

/-- Until its archive has been checked a job does nothing to its destination. -/
theorem step_advances (ht : s.step codecs plan projectRoot e = some t) :
    e.job = none ∧ t.stage = s.stage ∨
      ∃ job stage files, e.job = some job ∧ t = s.settle job stage files ∧
        Advances codecs plan job (s.stage job) stage ∧
        (s.stage job = .waiting → ¬ Touches projectRoot job s e t) := by
  cases e with
  | removeOrphan failed =>
    simp only [step] at ht
    split at ht
    · cases failed <;> cases ht <;> exact .inl ⟨rfl, rfl⟩
    · cases ht
  | settle job installed =>
    obtain ⟨⟨⟩, hguard, ht⟩ := Option.bind_eq_some_iff.mp ht
    cases ht
    have hwaiting : s.stage job = .waiting := by
      have hguard := (Option.guard_eq_some' _).mp hguard
      cases installed <;> simp_all [ready, waiting]
    exact .inr ⟨job, _, _, rfl, rfl, hwaiting ▸ .settle, fun _ h => by
      rcases h with ⟨_, h⟩ | h
      · cases h
      · exact h fun _ _ => rfl⟩
  | unpack job transfer =>
    obtain ⟨⟨⟩, hguard, ht⟩ := Option.bind_eq_some_iff.mp ht
    obtain ⟨url, -, ht⟩ := Option.bind_eq_some_iff.mp ht
    obtain ⟨hready, hdest⟩ := (Option.guard_eq_some' _).mp hguard
    simp only [ready, waiting, Bool.and_eq_true, decide_eq_true_eq] at hready
    -- either way the archive is unpacked beside the destination
    have hbeside : ∀ stage contents, ¬ Touches projectRoot job s (.unpack job transfer)
        (s.settle job stage
          (s.files.put (tempDestRoot (destRoot projectRoot job.1)) contents)) := by
      rintro stage contents (⟨_, h⟩ | h)
      · cases h
      · exact h fun path hpath => put_tempDestRoot hdest hpath _ _
    split at ht
    · cases ht
      exact .inr ⟨job, _, _, rfl, rfl, hready.1.1.2 ▸ .settle, fun _ => hbeside _ _⟩
    · rename_i hfetch
      cases ht
      exact .inr ⟨job, _, _, rfl, rfl,
        hready.1.1.2 ▸ .unpack hready.1.1.1.1 (fetchArchive_ok hfetch), fun _ => hbeside _ _⟩
  | clear job failed =>
    simp only [step] at ht
    split at ht
    · rename_i bytes hstage
      cases ht
      refine .inr ⟨job, _, _, rfl, rfl, ?_, fun hwaiting => by simp [hwaiting] at hstage⟩
      cases failed
      · exact hstage ▸ .clear
      · exact hstage ▸ .stop
    · cases ht
  | move job moved loaded =>
    simp only [step] at ht
    split at ht
    · rename_i bytes hstage
      cases ht
      exact .inr ⟨job, _, _, rfl, rfl, hstage ▸ .move, fun hwaiting => by simp [hwaiting] at hstage⟩
    · rename_i bytes hstage
      obtain ⟨⟨⟩, -, ht⟩ := Option.bind_eq_some_iff.mp ht
      cases ht
      exact .inr ⟨job, _, _, rfl, rfl, hstage ▸ .move, fun hwaiting => by simp [hwaiting] at hstage⟩
    · cases ht

theorem vetted_step (h : s.Vetted codecs plan) (ht : s.step codecs plan projectRoot e = some t) :
    t.Vetted codecs plan := by
  rcases step_advances ht with ⟨-, hstage⟩ | ⟨job, stage, files, -, rfl, hadv, -⟩
  · simpa only [Vetted, hstage] using h
  · intro job' bytes hbytes
    by_cases heq : job' = job
    · subst heq
      simp only [settle, Function.update_self] at hbytes
      generalize hs : s.stage job' = before at hadv
      cases hadv with
      | unpack hmem hmatch =>
        obtain rfl : _ = bytes := by simpa using hbytes
        exact ⟨hmem, hmatch⟩
      | clear =>
        obtain rfl : _ = bytes := by simpa using hbytes
        exact h job' _ (.inl hs)
      | settle | stop | move => simp at hbytes
    · exact h job' bytes (by simpa [settle, heq] using hbytes)

/-- What a job has downloaded stays the same. -/
theorem bytes_step (hs : (s.stage job).bytes = some bytes)
    (ht : s.step codecs plan projectRoot e = some t) : (t.stage job).bytes = some bytes := by
  rcases step_advances ht with ⟨-, hstage⟩ | ⟨job', stage, files, -, rfl, hadv, -⟩
  · rwa [hstage]
  · by_cases heq : job = job'
    · subst heq
      simp only [settle, Function.update_self]
      generalize s.stage job = before at hs hadv
      cases hadv <;> simp_all [Stage.bytes]
    · simpa [settle, heq] using hs

/-- Only what passed the check gets to the destination. -/
theorem Vetted.touches (h : s.Vetted codecs plan) (ht : s.step codecs plan projectRoot e = some t)
    (hjob : e.job = some job) (htouches : Touches projectRoot job s e t) :
    ∃ bytes, (s.stage job).bytes = some bytes ∧ job ∈ plan.jobs ∧
      (plan.expected job).Matches codecs bytes := by
  rcases step_advances ht with ⟨hnone, -⟩ | ⟨job', stage, files, hjob', -, hadv, hwaiting⟩
  · rw [hnone] at hjob
    cases hjob
  · cases Option.some.inj (hjob.symm.trans hjob')
    have hne : s.stage job ≠ .waiting := fun heq => hwaiting heq htouches
    generalize hs : s.stage job = before at hadv hne
    cases hadv with
    | settle | unpack => exact absurd rfl hne
    | clear | stop => exact ⟨_, rfl, h job _ (.inl hs)⟩
    | move => exact ⟨_, rfl, h job _ (.inr hs)⟩

/-- What gets to the destination has the digest published if what has only a shasum does. -/
theorem Vetted.touches_matches [UnicharTables] (h : s.Vetted codecs plan)
    (hcarried : ∀ job ∈ plan.jobs, Carried registry lockJson (plan.graph.node job.2))
    (ht : s.step codecs plan projectRoot e = some t) (hjob : e.job = some job)
    (htouches : Touches projectRoot job s e t) (hbytes : (s.stage job).bytes = some bytes)
    (hshasum : (plan.published job).integrity = none → (plan.published job).shasum ≠ none →
      (plan.published job).Matches codecs bytes) :
    (plan.published job).Matches codecs bytes := by
  obtain ⟨bytes', hbytes', hmem, hmatch⟩ := h.touches ht hjob htouches
  cases Option.some.inj (hbytes.symm.trans hbytes')
  have hexpected : plan.expected job = ⟨(plan.published job).integrity, none⟩ := by
    rw [InstallPlan.expected, (hcarried job hmem).integrity, (hcarried job hmem).shasum]
    rfl
  rw [hexpected] at hmatch
  by_cases hi : (plan.published job).integrity = none
  · by_cases hs : (plan.published job).shasum = none
    · simp [Published.Matches, hi, hs]
    · exact hshasum hi hs
  · obtain ⟨integrity, hsome⟩ := Option.ne_none_iff_exists'.mp hi
    simpa [Published.Matches, hsome] using hmatch

end Reification

/-- A registry that has version 1.0.0 of everything, with the digests given. -/
def distRegistry (digests : List (String × Json)) : Registry where
  version _ _ := .ok (.obj [("version", .str "1.0.0"),
    ("dist", .obj (("tarball", .str "https://registry.npmjs.org/x/-/x-1.0.0.tgz") :: digests))])
  packument _ := .error .crash

/-- Asks for `x` in version 1.0.0. -/
def exactDependency : Json := .obj [("dependencies", .obj [("x", .str "1.0.0")])]

/-- An installation from that registry. -/
def installFrom (digests : List (String × Json)) (manifest : Json) (lock : Option Json) :
    Result InstallPlan :=
  @install asciiTables (@Env.ofRegistry asciiTables (distRegistry digests)) ⟨2, 1⟩
    ⟨"linux", "x64", "glibc"⟩ {} (some manifest) lock

/-- An archive of nothing but `package/package.json`, which is an empty object. -/
def smallTar : List UInt8 :=
  [31, 139, 8, 0, 0, 0, 0, 0, 2, 3, 43, 72, 76, 206, 78, 76, 79, 213, 47, 128, 208, 122, 89, 197,
    249, 121, 12, 84, 6, 6, 64, 96, 102, 98, 130, 85, 28, 2, 140, 208, 196, 205, 12, 13, 205, 25,
    20, 12, 24, 70, 1, 173, 65, 117, 237, 104, 24, 140, 130, 81, 48, 10, 70, 193, 72, 4, 0, 58, 59,
    176, 247, 0, 8, 0, 0]

def hexString (bytes : List UInt8) : String :=
  String.ofList (bytes.flatMap fun b => [b.toNat / 16, b.toNat % 16].map Nat.digitChar)

def smallTarSha1 : List UInt8 :=
  [182, 232, 85, 21, 90, 205, 147, 68, 176, 58, 35, 220, 152, 66, 211, 173, 132, 144, 31, 78]

/-- Only `smallTar` is ever digested here, and only its SHA-1 digest decoded. -/
def smallTarCodecs : Codecs where
  digest _ _ := smallTarSha1
  hex := hexString
  base64Decode _ := smallTarSha1

def smallTarIntegrity : String × Json := ("integrity", .str "sha1-tuhVFVrNk0SwOiPcmELTrYSQH04=")

def project : List String := ["home", "project"]

/-- Nothing but an `index.js` in the directory. -/
def indexAt (dir : List String) : Files Unit :=
  fun path => if path = dir ++ ["index.js"] then some () else none

def smallTarTransfer : Transfer (Files Unit) where
  tarball := .ok smallTar
  unpack _ := .ok fun path => if path = [] ∨ path = ["package.json"] then some () else none
  leftover _ := none

/-- The package is downloaded and moved into place without any trouble. -/
def smallTarInstall (job : Job) : List (ReifyEvent Unit) :=
  [.unpack job smallTarTransfer, .clear job none, .move job true true]

def smallTarRun (plan : InstallPlan) (job : Job) (dir : List String) : Option (Reification Unit) :=
  Machine.exec (Reification.step smallTarCodecs plan project) (.start plan (indexAt dir))
    (smallTarInstall job)

/-- Whether there is an `index.js` and a `package.json` in the directory. -/
def seen (s : Reification Unit) (dir : List String) : Bool × Bool :=
  ((s.files (dir ++ ["index.js"])).isSome, (s.files (dir ++ ["package.json"])).isSome)

theorem smallTarInstall_job (h : e ∈ smallTarInstall job) : e.job = some job := by
  simp only [smallTarInstall, List.mem_cons, List.not_mem_nil, or_false] at h
  rcases h with rfl | rfl | rfl <;> rfl

def xDir : List String := project ++ ["node_modules", "x"]

def xJob : Job := ("node_modules/x", 1)

open Reification

/-- In every run of an installation, the published digests are enforced exactly
if every package that gets to its destination has an integrity published for it,
or no shasum either, or agrees with the shasum anyway, and nothing else changes
the destination of a package whose digest differs. -/
theorem install_enforced_iff [UnicharTables] {env : Env}
    (henv : env.fetch = fetchAndResolvePackageData registry)
    (hi : install env bounds platform opts packageJson lockJson = .ok plan)
    {codecs : Codecs} {projectRoot : List String} {files : Files E} {final : Reification E}
    (hrun : Machine.exec (step codecs plan projectRoot) (.start plan files) es =
      some final) :
    (∀ job ∈ plan.jobs, PublishedBy registry lockJson (plan.graph.node job.2)) ∧
      (Enforced codecs plan projectRoot files es final ↔
        Checked codecs plan projectRoot files es final) := by
  have hcarried : ∀ job ∈ plan.jobs, Carried registry lockJson (plan.graph.node job.2) := by
    intro job hjob
    obtain ⟨installs, hr, hmem⟩ := InstallPlan.mem_jobs.mp hjob
    exact ((install_provenance (feeds_carried henv) hi).installs installs hr _ _ hmem).2
  have hvetted : ∀ {s e t}, Takes codecs plan projectRoot files es s e t →
      s.Vetted codecs plan := fun h =>
    h.invariant (fun _ _ _ => vetted_step) fun job bytes hbytes => by
      simp [start] at hbytes
  have hlast : ∀ {s e t job bytes}, Takes codecs plan projectRoot files es s e t →
      (s.stage job).bytes = some bytes → (final.stage job).bytes = some bytes :=
    fun {s e t job bytes} h => h.kept (I := fun s => (s.stage job).bytes = some bytes)
      (fun _ _ _ => bytes_step) hrun
  refine ⟨fun job hjob => (hcarried job hjob).origin, fun h => ⟨?_, ?_⟩, fun h => ⟨?_, ?_⟩⟩
  · rintro s e t job htaken hjob (⟨loaded, rfl⟩ | hchanged) bytes hbytes - -
    · exact h.moved s job loaded t htaken bytes hbytes
    · obtain ⟨_, -, hmem, -⟩ := (hvetted htaken).touches htaken.step_eq hjob (.inr hchanged)
      exact not_not.mp fun hno =>
        hchanged (h.untouched job hmem bytes (hlast htaken hbytes) hno s e t htaken)
  · exact fun job hmem bytes hbytes hno s e t htaken _ =>
      h.untouched job hmem bytes hbytes hno s e t htaken
  · intro s job loaded t htaken bytes hbytes
    have htouches : Touches projectRoot job s (.move job true loaded) t :=
      .inl ⟨loaded, rfl⟩
    exact (hvetted htaken).touches_matches hcarried htaken.step_eq rfl htouches hbytes
      (h.shasum s _ t job htaken rfl htouches bytes hbytes)
  · intro job hmem bytes hbytes hno s e t htaken
    -- its own job touches the destination after the check only
    by_cases hjob : e.job = some job
    · by_contra hchanged
      have htouches : Touches projectRoot job s e t := .inr hchanged
      obtain ⟨bytes', hbytes', -⟩ := (hvetted htaken).touches htaken.step_eq hjob htouches
      cases Option.some.inj (hbytes.symm.trans (hlast htaken hbytes'))
      exact hno ((hvetted htaken).touches_matches hcarried htaken.step_eq hjob htouches hbytes'
        (h.shasum s e t job htaken hjob htouches bytes hbytes'))
    · exact h.apart job hmem bytes hbytes hno s e t htaken hjob

/-- The digest agrees, and what was installed before is replaced. -/
theorem install_enforced_iff_integrity : ∃ plan final,
    installFrom [smallTarIntegrity] exactDependency none = .ok plan ∧
    smallTarRun plan xJob xDir = some final ∧ seen final xDir = (false, true) ∧
    Enforced smallTarCodecs plan project (indexAt xDir)
      (smallTarInstall xJob) final := by
  have hrun : (installFrom [smallTarIntegrity] exactDependency none >>= fun plan =>
        return (plan.jobs, (plan.published xJob).integrity.isSome,
          (smallTarRun plan xJob xDir).map (seen · xDir))) =
      .ok ([xJob], true, some (false, true)) := by
    decide +kernel
  obtain ⟨plan, hplan, hrun⟩ := bind_eq_ok hrun
  simp only [pure, Except.pure, Except.ok.injEq, Prod.mk.injEq, Option.map_eq_some_iff] at hrun
  obtain ⟨hjobs, hintegrity, final, hfinal, hseen⟩ := hrun
  let _ := asciiTables
  refine ⟨plan, final, hplan, hfinal, hseen, (install_enforced_iff rfl hplan hfinal).2.mpr ⟨?_, ?_⟩⟩
  · rintro s e t job ⟨before, after, hes, -⟩ hjob _ bytes _ hnone
    have hjob' := smallTarInstall_job (hes ▸ by simp : e ∈ smallTarInstall xJob)
    cases Option.some.inj (hjob.symm.trans hjob')
    rw [hnone] at hintegrity
    cases hintegrity
  · rintro job hmem bytes - - s e t ⟨before, after, hes, -⟩ hne
    have hjob := smallTarInstall_job (hes ▸ by simp : e ∈ smallTarInstall xJob)
    rw [hjobs, List.mem_singleton] at hmem
    exact absurd (hmem ▸ hjob) hne

def shasumOnly : List (String × Json) :=
  [("shasum", .str "0123456789abcdef0123456789abcdef01234567")]

/-- The archive replaces the package that was there although its digest is not
the shasum the registry published. -/
theorem shasum_ignored : ∃ plan final,
    installFrom shasumOnly exactDependency none = .ok plan ∧
    plan.published xJob = ⟨none, some "0123456789abcdef0123456789abcdef01234567"⟩ ∧
    smallTarCodecs.hex (smallTarCodecs.digest .sha1 smallTar) =
      "b6e855155acd9344b03a23dc9842d3ad84901f4e" ∧
    smallTarRun plan xJob xDir = some final ∧ seen final xDir = (false, true) ∧
    ¬ Enforced smallTarCodecs plan project (indexAt xDir)
      (smallTarInstall xJob) final := by
  have hrun : (installFrom shasumOnly exactDependency none >>= fun plan =>
        return (plan.jobs, plan.published xJob,
          (smallTarRun plan xJob xDir).map fun s => (seen s xDir, s.stage xJob))) =
      .ok ([xJob], ⟨none, some "0123456789abcdef0123456789abcdef01234567"⟩,
        some ((false, true), .settled true (some smallTar))) := by
    decide +kernel
  obtain ⟨plan, hplan, hrun⟩ := bind_eq_ok hrun
  simp only [pure, Except.pure, Except.ok.injEq, Prod.mk.injEq, Option.map_eq_some_iff] at hrun
  obtain ⟨hjobs, hpublished, final, hfinal, hseen, hstage⟩ := hrun
  refine ⟨plan, final, hplan, hpublished, by decide +kernel, hfinal, hseen, fun h => ?_⟩
  have hno : smallTarCodecs.hex (smallTarCodecs.digest .sha1 smallTar) ≠
      down "0123456789abcdef0123456789abcdef01234567" := by decide +kernel
  have huntouched := h.untouched xJob (by simp [hjobs]) smallTar (by rw [hstage]; rfl)
    (by rw [hpublished]; exact hno)
  obtain ⟨t₁, h₁, hfinal⟩ := Option.bind_eq_some_iff.mp hfinal
  obtain ⟨t₂, h₂, hfinal⟩ := Option.bind_eq_some_iff.mp hfinal
  obtain ⟨t₃, h₃, hfinal⟩ := Option.bind_eq_some_iff.mp hfinal
  cases hfinal
  have hunder : (destRoot project "node_modules/x").isPrefixOf
      (xDir ++ ["index.js"]) := by decide +kernel
  have hfirst := huntouched _ _ t₁ ⟨[], _, rfl, rfl, h₁⟩ _ hunder
  have hsecond := huntouched t₁ _ t₂ ⟨[_], _, rfl, by simp [Machine.exec, h₁], h₂⟩ _ hunder
  have hthird := huntouched t₂ _ final ⟨[_, _], _, rfl, by simp [Machine.exec, h₁, h₂], h₃⟩ _ hunder
  have hindex := congrArg Prod.fst hseen
  simp only [seen] at hindex
  rw [hthird, hsecond, hfirst] at hindex
  simp [start, indexAt] at hindex

end FridaCore.Packages
