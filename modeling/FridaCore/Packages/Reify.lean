import FridaCore.Packages.Install
import FridaCore.Support.Machine

/-!
# Carrying out an installation

`install` from the removal of the orphans on, and the downloads `reify_graph`
starts. A package waits for the nearest one above it that is being installed;
other than that the steps of the downloads come in any order. Any of them may
fail, if only because another did and cancelled it. A directory is removed one
entry after the other, so a removal that fails leaves a part of it.
-/

namespace FridaCore.Packages

inductive ChecksumType
  | md5
  | sha1
  | sha256
  | sha384
  | sha512
  deriving DecidableEq, Repr

structure Codecs where
  digest : ChecksumType → List UInt8 → List UInt8
  hex : List UInt8 → String
  base64Decode : String → List UInt8

/-- How the network and the archive respond to one download, and what is left of
the directory unpacked into if something fails. The bytes are those the
decompressor reads, all of which pass the checksum. -/
structure Transfer (Dir : Type) where
  tarball : Except Error (List UInt8)
  unpack : List UInt8 → Except Error Dir
  leftover : Dir

def integrityAlgorithm : String → Except Error ChecksumType
  | "md5" => .ok .md5
  | "sha1" => .ok .sha1
  | "sha256" => .ok .sha256
  | "sha384" => .ok .sha384
  | "sha512" => .ok .sha512
  | other => .error (.protocol s!"Unsupported integrity algorithm {other}")

def parseIntegrity (codecs : Codecs) (integrity : String) :
    Except Error (ChecksumType × String × List UInt8) :=
  match Text.splitMost integrity "-" 1 with
  | [name, value] => do return (← integrityAlgorithm name, name, codecs.base64Decode value)
  | _ => .error (.protocol "Invalid integrity encoding")

def down (s : String) : String := String.ofList (s.toList.map Char.toLower)

def checkDigest (codecs : Codecs) (url : String) (bytes : List UInt8)
    (integrity : Option (ChecksumType × String × List UInt8)) (shasum : Option String) :
    Except Error Unit :=
  match integrity, shasum with
  | some (algo, name, expected), _ =>
    let actual := codecs.digest algo bytes
    if actual.length ≠ expected.length then
      .error (.protocol s!"Bad {name} digest length for {url}")
    else if actual ≠ expected then .error (.protocol s!"Detected {name} mismatch for {url}")
    else .ok ()
  | none, some shasum =>
    if codecs.hex (codecs.digest .sha1 bytes) ≠ down shasum then
      .error (.protocol s!"Detected shasum mismatch for {url}")
    else .ok ()
  | none, none => .ok ()

def fetchArchive (codecs : Codecs) (transfer : Transfer Dir) (url : String)
    (integrity shasum : Option String) : Except Error (List UInt8 × Dir) := do
  let bytes ← transfer.tarball
  let expected ← integrity.mapM (parseIntegrity codecs)
  let archive ← transfer.unpack bytes
  checkDigest codecs url bytes expected shasum
  return (bytes, archive)

/-- What is at each path, a file or a directory. -/
abbrev Files (E : Type) := List String → Option E

/-- `FS.rmtree_async`, and what is gone already if it fails. -/
def Files.rmtree (files : Files E) (dir : List String) (failed : Option (List String → Bool)) :
    Files E :=
  fun path => if dir.isPrefixOf path && failed.all (· path) then none else files path

def Files.put (files : Files E) (dir : List String) (contents : Files E) : Files E :=
  fun path => if dir.isPrefixOf path then contents (path.drop dir.length) else files path

/-- A node to download, with its path. -/
abbrev Job := String × NodeId

def InstallPlan.jobs (plan : InstallPlan) : List Job := plan.installs.toOption.getD []

/-- What was published for a node. -/
def InstallPlan.published (plan : InstallPlan) (job : Job) : Published :=
  (plan.graph.node job.2).published

/-- What its archive is checked against. -/
def InstallPlan.expected (plan : InstallPlan) (job : Job) : Published :=
  ⟨(plan.graph.node job.2).integrity, (plan.graph.node job.2).shasum⟩

theorem InstallPlan.mem_jobs {plan : InstallPlan} :
    job ∈ plan.jobs ↔ ∃ installs, plan.installs = .ok installs ∧ job ∈ installs := by
  cases h : plan.installs <;> simp [InstallPlan.jobs, h, Except.toOption]

/-- The job of the nearest node above that has one. -/
def InstallPlan.prereqWithin (plan : InstallPlan) : Nat → NodeId → Option Job
  | 0, _ => none
  | fuel + 1, x => do
    let above ← plan.graph.parent x
    match plan.jobs.find? (·.2 = above) with
    | some job => return job
    | none => plan.prereqWithin fuel above

/-- How far a job is, from waiting for its turn to its promise, and what it has downloaded. -/
inductive Stage
  | waiting
  | unpacked (bytes : List UInt8)
  | cleared (bytes : List UInt8)
  | settled (ok : Bool) (bytes : Option (List UInt8))
  deriving DecidableEq, Repr

def Stage.bytes : Stage → Option (List UInt8)
  | waiting => none
  | unpacked bytes | cleared bytes => some bytes
  | settled _ bytes => bytes

def Stage.resolved : Stage → Bool
  | settled ok _ => ok
  | _ => false

/-- The installation ends when removing an orphan fails, before anything is downloaded. -/
structure Reification (E : Type) where
  files : Files E
  orphans : List String
  failed : Bool := false
  stage : Job → Stage := fun _ => .waiting

inductive ReifyEvent (E : Type)
  | removeOrphan (failed : Option (List String → Bool))
  /-- The package turns out to be installed, or the job is cancelled while it waits, as it is when
  what it waits for fails. -/
  | settle (job : Job) (installed : Bool)
  /-- The archive is unpacked beside its destination and checked. -/
  | unpack (job : Job) (transfer : Transfer (Files E))
  /-- What is at the destination is removed. -/
  | clear (job : Job) (failed : Option (List String → Bool))
  /-- The archive is moved there, and its manifest loaded. -/
  | move (job : Job) (moved loaded : Bool)

def ReifyEvent.job : ReifyEvent E → Option Job
  | removeOrphan _ => none
  | settle job _ | unpack job _ | clear job _ | move job _ _ => some job

namespace Reification

def start (plan : InstallPlan) (files : Files E) : Reification E :=
  { files, orphans := plan.orphans }

def destRoot (projectRoot : List String) (path : String) : List String :=
  Path.normalize (installDirForDependency path projectRoot)

def tempDestRoot (dest : List String) : List String :=
  dest.dropLast ++ [".fpm_" ++ dest.getLastD ""]

variable (codecs : Codecs) (plan : InstallPlan) (projectRoot : List String)

def waiting (s : Reification E) (job : Job) : Bool :=
  job ∈ plan.jobs && s.orphans.isEmpty && s.stage job = .waiting

/-- Without a version a node crashes. -/
def ready (s : Reification E) (job : Job) : Bool :=
  s.waiting plan job && (plan.graph.node job.2).version.isSome &&
    (plan.prereqWithin plan.graph.fuel job.2).all fun above => (s.stage above).resolved

def settle (s : Reification E) (job : Job) (stage : Stage) (files : Files E) : Reification E :=
  { s with files, stage := Function.update s.stage job stage }

def step (s : Reification E) : ReifyEvent E → Option (Reification E)
  | .removeOrphan failed =>
    match s.orphans, s.failed with
    | path :: rest, false =>
      let files := s.files.rmtree (destRoot projectRoot path) failed
      some (if failed.isNone then { s with files, orphans := rest }
        else { s with files, failed := true })
    | _, _ => none
  | .settle job installed => do
    guard (if installed then s.ready plan job else s.waiting plan job)
    return s.settle job (.settled installed none) s.files
  | .unpack job transfer => do
    let node := plan.graph.node job.2
    let dest := destRoot projectRoot job.1
    -- A destination without a parent directory is null, as is a missing URL.
    guard (s.ready plan job ∧ dest ≠ [])
    match fetchArchive codecs transfer (← node.resolved) node.integrity node.shasum with
    | .error _ =>
      return s.settle job (.settled false transfer.tarball.toOption)
        (s.files.put (tempDestRoot dest) transfer.leftover)
    | .ok (bytes, archive) =>
      return s.settle job (.unpacked bytes) (s.files.put (tempDestRoot dest) archive)
  | .clear job failed =>
    match s.stage job with
    | .unpacked bytes =>
      some (s.settle job (if failed.isNone then .cleared bytes else .settled false bytes)
        (s.files.rmtree (destRoot projectRoot job.1) failed))
    | _ => none
  | .move job moved loaded =>
    let dest := destRoot projectRoot job.1
    let temp := tempDestRoot dest
    match s.stage job, moved with
    | .cleared bytes, false => some (s.settle job (.settled false bytes) s.files)
    | .cleared bytes, true => do
      -- An archive without files has not made a directory to move.
      guard (s.files temp).isSome
      return s.settle job (.settled loaded bytes)
        ((s.files.put dest fun path => s.files (temp ++ path)).rmtree temp none)
    | _, _ => none

end Reification

end FridaCore.Packages
