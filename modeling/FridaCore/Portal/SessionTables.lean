import FridaCore.Portal.Directory

/-!
# Agent sessions of a portal

The tables of sessions of `src/portal-service.vala`: those of the service, of each node that is
connected and of each controller that is connected. `attach` is suspended while the node opens a
session, and `link_session` while it gets a proxy. Identifiers of sessions are generated and
are all different.
-/

namespace FridaCore.Portal

abbrev SessionId := Nat

/-- `AgentSessionEntry`. A proxy of the session is there or not, and so is the timer. -/
structure AgentSessionEntry where
  node : Option ConnectionId
  controller : Option ControllerId
  persistTimeout : UInt32
  session : Bool := false
  expiryTimer : Bool := false
  deriving DecidableEq, Repr

/-- A call of `attach` that waits for its node. The timeout is in the options, which may be
malformed. The directory is the one of the time of the request: it is not used by the code. -/
structure Opening where
  id : SessionId
  node : ConnectionId
  requester : ControllerId
  persistTimeout : Option UInt32
  asked : Directory

/-- The nodes and controllers are the ones that are connected, with their sets of sessions. -/
structure SessionTables where
  nodes : ConnectionId → Option (Finset SessionId) := fun _ => none
  controllers : ControllerId → Option (Finset SessionId) := fun _ => none
  sessions : SessionId → Option AgentSessionEntry := fun _ => none
  opening : List Opening := []
  linking : List SessionId := []
  nextSession : SessionId := 0
  missingEntry : Bool := false

namespace SessionTables

def setNode (t : SessionTables) (node : ConnectionId) (ids : Option (Finset SessionId)) :
    SessionTables :=
  { t with nodes := Function.update t.nodes node ids }

def setController (t : SessionTables) (controller : ControllerId)
    (ids : Option (Finset SessionId)) : SessionTables :=
  { t with controllers := Function.update t.controllers controller ids }

def setSession (t : SessionTables) (id : SessionId) (entry : Option AgentSessionEntry) :
    SessionTables :=
  { t with sessions := Function.update t.sessions id entry }

/-- `sessions.add` and `sessions.remove` of a node, if it is still connected. -/
def changeNode (t : SessionTables) (node : Option ConnectionId)
    (f : Finset SessionId → Finset SessionId) : SessionTables :=
  match node with
  | none => t
  | some node => t.setNode node ((t.nodes node).map f)

def changeController (t : SessionTables) (controller : Option ControllerId)
    (f : Finset SessionId → Finset SessionId) : SessionTables :=
  match controller with
  | none => t
  | some controller => t.setController controller ((t.controllers controller).map f)

/-- `attach`, up to where it waits for the node. -/
def attach (t : SessionTables) (node : ConnectionId) (requester : ControllerId)
    (persistTimeout : Option UInt32) (asked : Directory) : SessionTables :=
  { t with
    opening := { id := t.nextSession, node, requester, persistTimeout, asked } :: t.opening
    nextSession := t.nextSession + 1 }

/-- `link_session` begins, and waits for a proxy if there is none. -/
def linkSession (t : SessionTables) (id : SessionId) (entry : AgentSessionEntry) : SessionTables :=
  if entry.session then t else { t with linking := id :: t.linking }

section
variable (t : SessionTables) (id : SessionId) (entry : AgentSessionEntry)

@[simp] theorem changeNode_sessions (node : Option ConnectionId)
    (f : Finset SessionId → Finset SessionId) : (t.changeNode node f).sessions = t.sessions := by
  cases node <;> rfl

@[simp] theorem changeController_sessions (controller : Option ControllerId)
    (f : Finset SessionId → Finset SessionId) :
    (t.changeController controller f).sessions = t.sessions := by
  cases controller <;> rfl

@[simp] theorem changeNode_opening (node : Option ConnectionId)
    (f : Finset SessionId → Finset SessionId) : (t.changeNode node f).opening = t.opening := by
  cases node <;> rfl

@[simp] theorem changeController_opening (controller : Option ControllerId)
    (f : Finset SessionId → Finset SessionId) :
    (t.changeController controller f).opening = t.opening := by
  cases controller <;> rfl

@[simp] theorem linkSession_sessions : (t.linkSession id entry).sessions = t.sessions := by
  unfold linkSession
  split <;> rfl

@[simp] theorem linkSession_opening : (t.linkSession id entry).opening = t.opening := by
  unfold linkSession
  split <;> rfl

end

/-- `attach` goes on after the node has opened the session. Malformed options are only
noticed after both sets have the session. -/
def opened (t : SessionTables) (o : Opening) : SessionTables :=
  let t := { t with opening := t.opening.filter fun other => other.id ≠ o.id }
  let t := t.changeNode (some o.node) (insert o.id)
  let t := t.changeController (some o.requester) (insert o.id)
  match o.persistTimeout with
  | none => t
  | some persistTimeout =>
    let entry := { node := some o.node, controller := some o.requester, persistTimeout }
    (t.setSession o.id (some entry)).linkSession o.id entry

def openFailed (t : SessionTables) (o : Opening) : SessionTables :=
  { t with opening := t.opening.filter fun other => other.id ≠ o.id }

/-- `link_session` goes on with a proxy. -/
def linked (t : SessionTables) (id : SessionId) : SessionTables :=
  let t := { t with linking := t.linking.erase id }
  match t.sessions id with
  | none => t
  | some entry => t.setSession id (some { entry with session := true })

def linkFailed (t : SessionTables) (id : SessionId) : SessionTables :=
  { t with linking := t.linking.erase id }

/-- `reattach`, which fails when the session has a controller or no node. -/
def reattach (t : SessionTables) (id : SessionId) (requester : ControllerId) : SessionTables :=
  match t.sessions id with
  | none => t
  | some entry =>
    if entry.controller ≠ none ∨ entry.node = none then t
    else
      let entry := { entry with controller := some requester, expiryTimer := false }
      ((t.setSession id (some entry)).changeController (some requester) (insert id)).linkSession
        id entry

/-- The interrupted sessions of a node that joins, and whether all could be claimed. -/
def claimSessions (node : ConnectionId) : List SessionId → SessionTables → SessionTables × Bool
  | [], t => (t, true)
  | id :: ids, t =>
    match t.sessions id with
    | none => claimSessions node ids t
    | some entry =>
      if entry.node ≠ none then (t, false)
      else
        claimSessions node ids
          ((t.setSession id (some { entry with node := some node })).changeNode (some node)
            (insert id))

def dropController (t : SessionTables) (id : SessionId) : SessionTables :=
  match t.sessions id with
  | none => { t with missingEntry := true }
  | some entry =>
    if entry.persistTimeout = 0 ∨ entry.session = false then
      (t.setSession id none).changeNode entry.node (·.erase id)
    else t.setSession id (some { entry with controller := none, expiryTimer := true })

/-- `teardown_control_channel`, without the spawn gating. -/
def teardownControlChannel (t : SessionTables) (controller : ControllerId) : SessionTables :=
  match t.controllers controller with
  | none => t
  | some ids => (ids.sort (· ≤ ·)).foldl dropController (t.setController controller none)

def dropNode (t : SessionTables) (id : SessionId) : SessionTables :=
  match t.sessions id with
  | none => { t with missingEntry := true }
  | some entry =>
    let t := t.changeController entry.controller (·.erase id)
    if entry.persistTimeout = 0 ∨ entry.session = false then t.setSession id none
    else
      t.setSession id (some { entry with
        node := none, controller := none, session := false, expiryTimer := true })

/-- `teardown_cluster_node`, for the sessions. -/
def teardownClusterNode (t : SessionTables) (node : ConnectionId) : SessionTables :=
  match t.nodes node with
  | none => t
  | some ids => (ids.sort (· ≤ ·)).foldl dropNode (t.setNode node none)

/-- `on_agent_session_expired`. -/
def onAgentSessionExpired (t : SessionTables) (id : SessionId) (entry : AgentSessionEntry) :
    SessionTables :=
  (t.setSession id none).changeNode entry.node (·.erase id)

/-- `on_session_closed` of a node, and `on_agent_session_closed`. -/
def onAgentSessionClosed (t : SessionTables) (node : ConnectionId) (id : SessionId) :
    SessionTables :=
  if id ∈ (t.nodes node).getD ∅ then
    let t := t.changeNode (some node) (·.erase id)
    match t.sessions id with
    | none => t
    | some entry => (t.setSession id none).changeController entry.controller (·.erase id)
  else t

end SessionTables

end FridaCore.Portal
