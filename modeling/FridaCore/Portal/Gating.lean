import FridaCore.Portal.Directory

/-!
# Nodes that have joined, and spawn gating

The tables `node_by_pid`, `node_by_identifier`, `spawn_gaters` and `pending_spawn` of
`src/portal-service.vala`. Who has access is decided by the tags, and is given here.
-/

namespace FridaCore.Portal

open List Option Prod UInt32

/-- `Application`, as far as the tables need it. -/
structure Application where
  identifier : String
  pid : UInt32
  deriving DecidableEq, Repr

inductive SpawnStartState
  | running
  | suspended
  deriving DecidableEq, Repr

structure PendingSpawn where
  node : ConnectionId
  pid : UInt32
  identifier : String
  pendingApprovers : Finset ControllerId
  deriving DecidableEq

/-- The tables, the nodes that were told to stay suspended, and the nodes that were sent
`resume`. -/
structure Gating where
  application : ConnectionId → Option Application := fun _ => none
  nodeByPid : List (UInt32 × ConnectionId) := []
  nodeByIdentifier : List (String × ConnectionId) := []
  spawnGaters : Finset ControllerId := ∅
  pendingSpawn : List PendingSpawn := []
  held : List ConnectionId := []
  resumed : List ConnectionId := []
  assertionFailed : Bool := false

namespace Gating

/-- `node_by_pid[pid]`. -/
def nodeAt (g : Gating) (pid : UInt32) : Option ConnectionId := g.nodeByPid.lookup pid

/-- `pending_spawn[pid]`. -/
def spawnAt (g : Gating) (pid : UInt32) : Option PendingSpawn :=
  g.pendingSpawn.find? fun spawn => spawn.pid = pid

/-- `find_node_accessible_by`. -/
def findNodeAccessibleBy (access : ConnectionId → ControllerId → Bool) (g : Gating)
    (requester : ControllerId) (pid : UInt32) : Option ConnectionId :=
  (g.nodeAt pid).filter fun node => access node requester

theorem findNodeAccessibleBy_of_nodeAt {g : Gating} (h : g.nodeAt pid = some node)
    (requester : ControllerId) :
    g.findNodeAccessibleBy access requester pid =
      if access node requester then some node else none := by
  rw [findNodeAccessibleBy, h, filter_some]

theorem findNodeAccessibleBy_eq_some {g : Gating} {node : ConnectionId} :
    g.findNodeAccessibleBy access requester pid = some node ↔
      g.nodeAt pid = some node ∧ access node requester = true := by
  rw [findNodeAccessibleBy, filter_eq_some_iff]

/-- `all_nodes_accessible_by`. -/
def allNodesAccessibleBy (access : ConnectionId → ControllerId → Bool) (g : Gating)
    (requester : ControllerId) : List ConnectionId :=
  (g.nodeByPid.map Prod.snd).filter fun node => access node requester

def enableSpawnGating (access : ConnectionId → ControllerId → Bool) (requester : ControllerId)
    (g : Gating) : Gating :=
  { g with
    spawnGaters := insert requester g.spawnGaters
    pendingSpawn := g.pendingSpawn.map fun spawn =>
      if (g.findNodeAccessibleBy access requester spawn.pid).isSome then
        { spawn with pendingApprovers := insert requester spawn.pendingApprovers }
      else spawn }

/-- `pending_spawn.unset`. -/
def unsetSpawn (pid : UInt32) (spawns : List PendingSpawn) : List PendingSpawn :=
  spawns.filter fun spawn => spawn.pid ≠ pid

def resume (pid : UInt32) (requester : ControllerId) (g : Gating) : Gating :=
  match g.spawnAt pid with
  | none => g
  | some spawn =>
    let approvers := spawn.pendingApprovers.erase requester
    if approvers = ∅ then
      match g.nodeAt pid with
      | none => { g with pendingSpawn := unsetSpawn pid g.pendingSpawn, assertionFailed := true }
      | some node =>
        { g with
          pendingSpawn := unsetSpawn pid g.pendingSpawn
          resumed := g.resumed ++ [node] }
    else
      { g with
        pendingSpawn := g.pendingSpawn.map fun other =>
          if other.pid = pid then { other with pendingApprovers := approvers } else other }

def disableSpawnGating (requester : ControllerId) (g : Gating) : Gating :=
  if requester ∈ g.spawnGaters then
    (g.pendingSpawn.map PendingSpawn.pid).foldl (fun g pid => g.resume pid requester)
      { g with spawnGaters := g.spawnGaters.erase requester }
  else g

def freePid (taken : List UInt32) : (fuel : Nat) → (pid : UInt32) → Option UInt32
  | 0, _ => none
  | fuel + 1, pid => if pid ∈ taken then freePid taken fuel (pid + 1) else some pid

/-- An identifier with a serial, which is a `uint`. -/
def serialName (realIdentifier : String) (serial : Nat) : String :=
  realIdentifier ++ "[" ++ toString (serial % 2 ^ 32) ++ "]"

def freeIdentifier (taken : List String) (realIdentifier : String) :
    (fuel : Nat) → (candidate : String) → (serial : Nat) → Option String
  | 0, _, _ => none
  | fuel + 1, candidate, serial =>
    if candidate ∈ taken then
      freeIdentifier taken realIdentifier fuel (serialName realIdentifier serial) (serial + 1)
    else some candidate

/-- `all_spawn_gaters_with_access_to`. -/
def allSpawnGatersWithAccessTo (access : ConnectionId → ControllerId → Bool) (g : Gating)
    (node : ConnectionId) : Finset ControllerId :=
  g.spawnGaters.filter fun controller => access node controller

/-- The part of `handle_join_request` that gives a node its pid and decides how it starts. -/
def register (access : ConnectionId → ControllerId → Bool) (node : ConnectionId)
    (app : Application) (currentState : SpawnStartState) (g : Gating) : Option Gating := do
  let pid ← freePid (g.nodeByPid.map Prod.fst) (g.nodeByPid.length + 1) app.pid
  let identifier ← freeIdentifier (g.nodeByIdentifier.map Prod.fst) app.identifier
    (g.nodeByIdentifier.length + 1) app.identifier 2
  let joined :=
    { g with
      application := Function.update g.application node (some { identifier, pid })
      nodeByPid := (pid, node) :: g.nodeByPid
      nodeByIdentifier := (identifier, node) :: g.nodeByIdentifier }
  let eligible := g.allSpawnGatersWithAccessTo access node
  if currentState = .suspended ∧ eligible ≠ ∅ then
    return { joined with
      pendingSpawn := { node, pid, identifier, pendingApprovers := eligible } ::
        unsetSpawn pid g.pendingSpawn
      held := g.held ++ [node] }
  else return joined

/-- The part of `teardown_cluster_node` for a node that has joined. -/
def unregister (node : ConnectionId) (g : Gating) : Gating :=
  match g.application node with
  | none => g
  | some app =>
    { g with
      nodeByPid := g.nodeByPid.filter fun p => p.1 ≠ app.pid
      nodeByIdentifier := g.nodeByIdentifier.filter fun p => p.1 ≠ app.identifier
      pendingSpawn := unsetSpawn app.pid g.pendingSpawn }

theorem mem_of_freePid_eq_none
    (h : freePid taken fuel start = none) : ∀ i < fuel, start + UInt32.ofNat i ∈ taken := by
  induction fuel generalizing start with
  | zero => exact fun i hi => absurd hi (Nat.not_lt_zero i)
  | succ fuel ih =>
    unfold freePid at h
    split at h
    next hin =>
      intro i hi
      cases i with
      | zero => simpa using hin
      | succ i =>
        have hrest := ih h i (by omega)
        rwa [UInt32.add_assoc, UInt32.add_comm 1, ← UInt32.ofNat_one, ← UInt32.ofNat_add] at hrest
    next => cases h

theorem le_length_of_forall_mem {f : Nat → α} {taken : List α}
    (hinj : ∀ i < n, ∀ j < n, f i = f j → i = j) (h : ∀ i < n, f i ∈ taken) :
    n ≤ taken.length := by
  have hnodup : ((range n).map f).Nodup := List.Nodup.map_on
    (fun i hi j hj => hinj i (mem_range.mp hi) j (mem_range.mp hj)) nodup_range
  have hsubset : (range n).map f ⊆ taken := by simpa [subset_def] using h
  simpa using (hnodup.subperm hsubset).length_le

theorem freePid_isSome (h : taken.length < 2 ^ 32) (start : UInt32) :
    (freePid taken (taken.length + 1) start).isSome := by
  by_contra hnone
  rw [Bool.not_eq_true, isSome_eq_false_iff, isNone_iff_eq_none] at hnone
  refine absurd (le_length_of_forall_mem (fun i hi j hj hij => ?_) (mem_of_freePid_eq_none hnone))
    (Nat.not_succ_le_self _)
  have := congrArg toNat (add_right_inj start |>.mp hij)
  rwa [toNat_ofNat_of_lt' (by show _ < 2 ^ 32; omega),
    toNat_ofNat_of_lt' (by show _ < 2 ^ 32; omega)] at this

theorem serialName_inj (h : serialName realIdentifier i = serialName realIdentifier j) :
    i % 2 ^ 32 = j % 2 ^ 32 := by
  have hserial : toString (i % 2 ^ 32) = toString (j % 2 ^ 32) := by
    simpa [serialName, String.append_assoc] using h
  simpa using congrArg String.toNat? hserial

theorem serialName_ne (realIdentifier : String) (i : Nat) :
    serialName realIdentifier i ≠ realIdentifier := by
  intro h
  have hlength := congrArg String.length h
  have hbracket : "[".length = 1 := by decide
  simp only [serialName, String.length_append] at hlength
  omega

theorem mem_of_freeIdentifier_eq_none
    (h : freeIdentifier taken realIdentifier (fuel + 1) candidate serial = none) :
    candidate ∈ taken ∧ ∀ i < fuel, serialName realIdentifier (serial + i) ∈ taken := by
  induction fuel generalizing candidate serial with
  | zero =>
    unfold freeIdentifier at h
    split at h
    next hin => exact ⟨hin, fun i hi => absurd hi (Nat.not_lt_zero i)⟩
    next => cases h
  | succ fuel ih =>
    unfold freeIdentifier at h
    split at h
    next hin =>
      obtain ⟨hfirst, hrest⟩ := ih h
      refine ⟨hin, fun i hi => ?_⟩
      cases i with
      | zero => exact hfirst
      | succ i =>
        have hnext := hrest i (by omega)
        rwa [Nat.add_right_comm, Nat.add_assoc] at hnext
    next => cases h

theorem freeIdentifier_isSome (h : taken.length ≤ 2 ^ 32) (realIdentifier : String) (serial : Nat) :
    (freeIdentifier taken realIdentifier (taken.length + 1) realIdentifier serial).isSome := by
  by_contra hnone
  rw [Bool.not_eq_true, isSome_eq_false_iff, isNone_iff_eq_none] at hnone
  obtain ⟨hreal, hall⟩ := mem_of_freeIdentifier_eq_none hnone
  have hrest : ∀ i < taken.length,
      serialName realIdentifier (serial + i) ∈ taken.erase realIdentifier :=
    fun i hi => (mem_erase_of_ne (serialName_ne _ _)).mpr (hall i hi)
  have hle := le_length_of_forall_mem (fun i hi j hj hij => ?_) hrest
  · have hpos := length_pos_of_mem hreal
    rw [length_erase_of_mem hreal] at hle
    omega
  · have hmod := serialName_inj hij
    omega

/-- A node that joins gets a pid and an identifier, with fewer than 2³² nodes. -/
theorem register_isSome {g : Gating} (access : ConnectionId → ControllerId → Bool)
    (node : ConnectionId) (app : Application) (currentState : SpawnStartState)
    (hpids : g.nodeByPid.length < 2 ^ 32) (hnames : g.nodeByIdentifier.length < 2 ^ 32) :
    (g.register access node app currentState).isSome := by
  have hp : (g.nodeByPid.map fst).length < 2 ^ 32 := by rwa [length_map]
  have hn : (g.nodeByIdentifier.map fst).length ≤ 2 ^ 32 := by
    rw [length_map]
    omega
  obtain ⟨pid, hpid⟩ := isSome_iff_exists.mp (freePid_isSome hp app.pid)
  obtain ⟨identifier, hidentifier⟩ :=
    isSome_iff_exists.mp (freeIdentifier_isSome hn app.identifier 2)
  rw [length_map] at hpid hidentifier
  rw [register, hpid, bind_eq_bind, bind_some, hidentifier, bind_eq_bind,
    bind_some]
  dsimp only
  split <;> rfl

end Gating

end FridaCore.Portal
