import FridaCore.Portal.Gating
import FridaCore.Portal.SessionTables
import FridaCore.Support.Machine

/-!
# The portal service

`PortalService` of `src/portal-service.vala` between its suspension points: one event is what
runs from one to the next. A request is only made by a controller or a node that is connected.
A request that fails is an event as well.
-/

namespace FridaCore.Portal

inductive Acl
  | absent
  | malformed
  | tags (acl : List Tag)
  deriving DecidableEq, Repr

inductive Event
  | connectNode
  | connectController
  | createChannel
  | destroyChannel
  | disconnect (id : ConnectionId)
  | tag (id : ConnectionId) (tag : Tag)
  | untag (id : ConnectionId) (tag : Tag)
  | join (node : ConnectionId) (app : Application) (currentState : SpawnStartState)
      (interruptedSessions : List SessionId) (acl : Acl)
  | enumerate (requester : ControllerId)
  | kill (pid : UInt32) (requester : ControllerId)
  | enableSpawnGating (requester : ControllerId)
  | disableSpawnGating (requester : ControllerId)
  | resume (pid : UInt32) (requester : ControllerId)
  | attach (pid : UInt32) (persistTimeout : Option UInt32) (requester : ControllerId)
  | opened (id : SessionId)
  | openFailed (id : SessionId)
  | linked (id : SessionId)
  | linkFailed (id : SessionId)
  | reattach (id : SessionId) (requester : ControllerId)
  | sessionExpired (id : SessionId)
  | sessionClosed (node : ConnectionId) (id : SessionId)
  deriving DecidableEq, Repr

/-- Every connection has an identifier of its own, until the `uint` they are counted by wraps. -/
def Event.connects : Event → Bool
  | connectNode | connectController => true
  | _ => false

structure Service where
  directory : Directory := {}
  gating : Gating := {}
  tables : SessionTables := {}
  channel : Option Nat := none
  nextChannel : Nat := 0

namespace Service

def HasController (s : Service) (controller : ControllerId) : Prop :=
  (s.tables.controllers controller).isSome

def HasNode (s : Service) (node : ConnectionId) : Prop := (s.tables.nodes node).isSome

instance (s : Service) (controller : ControllerId) : Decidable (s.HasController controller) :=
  inferInstanceAs (Decidable (_ = true))

instance (s : Service) (node : ConnectionId) : Decidable (s.HasNode node) :=
  inferInstanceAs (Decidable (_ = true))

def connectNode (s : Service) : Service :=
  { s with
    directory := s.directory.registerConnection true
    tables := s.tables.setNode s.directory.nextConnectionId (some ∅) }

def connectController (s : Service) : Service :=
  { s with
    directory := s.directory.registerConnection false
    tables := s.tables.setController (.remote s.directory.nextConnectionId) (some ∅) }

/-- `create` of the provider, which has one channel at a time. -/
def createChannel (s : Service) : Service :=
  match s.channel with
  | some _ => s
  | none =>
    { s with
      tables := s.tables.setController (.inProcess s.nextChannel) (some ∅)
      channel := some s.nextChannel
      nextChannel := s.nextChannel + 1 }

/-- `close` of a `ControlChannel`. -/
def closeController (s : Service) (controller : ControllerId) : Service :=
  { s with
    tables := s.tables.teardownControlChannel controller
    gating := s.gating.disableSpawnGating controller }

def destroyChannel (s : Service) : Service :=
  match s.channel with
  | none => s
  | some serial => { s.closeController (.inProcess serial) with channel := none }

/-- `close` of a `ClusterNode`. -/
def closeNode (s : Service) (node : ConnectionId) : Service :=
  { s with
    tables := s.tables.teardownClusterNode node
    gating := s.gating.unregister node }

/-- `on_connection_closed`. -/
def disconnect (s : Service) (id : ConnectionId) : Option Service :=
  if s.HasNode id then
    let s := s.closeNode id
    some { s with directory := s.directory.closeConnection id }
  else if s.HasController (.remote id) then
    let s := s.closeController (.remote id)
    some { s with directory := s.directory.closeConnection id }
  else none

def joinDirectory (s : Service) (node : ConnectionId) : Acl → Directory
  | .tags acl => s.directory.addAcl node acl
  | .absent | .malformed => s.directory

/-- `handle_join_request`. The tags stay when it fails after the 'acl' option, and the sessions
that were claimed do. -/
def join (s : Service) (node : ConnectionId) (app : Application) (currentState : SpawnStartState)
    (interruptedSessions : List SessionId) (acl : Acl) : Option Service :=
  if s.gating.application node ≠ none ∨ acl = .malformed then some s
  else
    let directory := s.joinDirectory node acl
    let claim := SessionTables.claimSessions node interruptedSessions s.tables
    if claim.2 then
      (s.gating.register directory.canAccess node app currentState).map fun gating =>
        { s with directory, tables := claim.1, gating }
    else some { s with directory, tables := claim.1 }

/-- A node that joins fails at once, or after the sessions, or is registered. -/
theorem join_eq_some {s t : Service} {node : ConnectionId} {app : Application}
    {state : SpawnStartState} {ids : List SessionId} {acl : Acl}
    (h : s.join node app state ids acl = some t) :
    (s.gating.application node ≠ none ∨ acl = .malformed) ∧ t = s ∨
    s.gating.application node = none ∧ acl ≠ .malformed ∧
      t.directory = s.joinDirectory node acl ∧
      t.tables = (SessionTables.claimSessions node ids s.tables).1 ∧
      (t.gating = s.gating ∨
        s.gating.register t.directory.canAccess node app state = some t.gating) := by
  unfold join at h
  split at h
  next hfailed =>
    cases h
    exact .inl ⟨hfailed, rfl⟩
  next hgo =>
    rw [not_or, not_not] at hgo
    refine .inr ⟨hgo.1, hgo.2, ?_⟩
    dsimp only at h
    split at h
    · obtain ⟨gating, hgating, rfl⟩ := Option.map_eq_some_iff.mp h
      exact ⟨rfl, rfl, .inr hgating⟩
    · cases h
      exact ⟨rfl, rfl, .inl rfl⟩

def attach (s : Service) (pid : UInt32) (persistTimeout : Option UInt32)
    (requester : ControllerId) : Service :=
  match s.gating.findNodeAccessibleBy s.directory.canAccess requester pid with
  | none => s
  | some node =>
    { s with tables := s.tables.attach node requester persistTimeout s.directory }

def findOpening (s : Service) (id : SessionId) : Option Opening :=
  s.tables.opening.find? fun o => o.id = id

def step (s : Service) : Event → Option Service
  | .connectNode => some s.connectNode
  | .connectController => some s.connectController
  | .createChannel => some s.createChannel
  | .destroyChannel => some s.destroyChannel
  | .disconnect id => s.disconnect id
  | .tag id tag => some { s with directory := s.directory.doTag id tag }
  | .untag id tag => some { s with directory := s.directory.doUntag id tag }
  | .join node app currentState interruptedSessions acl =>
    if s.HasNode node then s.join node app currentState interruptedSessions acl else none
  | .enumerate requester => if s.HasController requester then some s else none
  | .kill _ requester => if s.HasController requester then some s else none
  | .enableSpawnGating requester =>
    if s.HasController requester then
      some { s with gating := s.gating.enableSpawnGating s.directory.canAccess requester }
    else none
  | .disableSpawnGating requester =>
    if s.HasController requester then
      some { s with gating := s.gating.disableSpawnGating requester }
    else none
  | .resume pid requester =>
    if s.HasController requester then some { s with gating := s.gating.resume pid requester }
    else none
  | .attach pid persistTimeout requester =>
    if s.HasController requester then some (s.attach pid persistTimeout requester) else none
  | .opened id => (s.findOpening id).map fun o => { s with tables := s.tables.opened o }
  | .openFailed id => (s.findOpening id).map fun o => { s with tables := s.tables.openFailed o }
  | .linked id => if id ∈ s.tables.linking then some { s with tables := s.tables.linked id } else none
  | .linkFailed id =>
    if id ∈ s.tables.linking then some { s with tables := s.tables.linkFailed id } else none
  | .reattach id requester =>
    if s.HasController requester then some { s with tables := s.tables.reattach id requester }
    else none
  | .sessionExpired id =>
    ((s.tables.sessions id).filter AgentSessionEntry.expiryTimer).map fun entry =>
      { s with tables := s.tables.onAgentSessionExpired id entry }
  | .sessionClosed node id =>
    if s.HasNode node then some { s with tables := s.tables.onAgentSessionClosed node id } else none

end Service

end FridaCore.Portal
