import FridaCore.Portal.Service
import FridaCore.Support.Ownership

/-!
# The session tables of a portal agree

The set of sessions of a node that is connected, or of a controller, indexes the entries of the
service. Every event keeps it that way but one: a node has opened a session, and the node or the
controller that asked for it is not connected any more, or its options are malformed.
-/

namespace FridaCore.Portal

open List Option Nat Function Directory

open Ownership

namespace SessionTables

def nodeOf (t : SessionTables) (id : SessionId) : Option ConnectionId :=
  (t.sessions id).bind AgentSessionEntry.node

def controllerOf (t : SessionTables) (id : SessionId) : Option ControllerId :=
  (t.sessions id).bind AgentSessionEntry.controller

structure Agrees (t : SessionTables) : Prop where
  nodes : Indexes t.nodes t.nodeOf
  controllers : Indexes t.controllers t.controllerOf
  found : t.missingEntry = false

theorem agrees_iff {t : SessionTables} : t.Agrees ↔
    (Indexes t.nodes t.nodeOf ∧ Indexes t.controllers t.controllerOf) ∧ t.missingEntry = false :=
  ⟨fun h => ⟨⟨h.nodes, h.controllers⟩, h.found⟩, fun ⟨⟨hn, hc⟩, hf⟩ => ⟨hn, hc, hf⟩⟩

section
variable {t after : SessionTables} {id : SessionId} {entry : AgentSessionEntry}
  {node : ConnectionId} {controller : ControllerId}

theorem changeNode_eq (key : Option ConnectionId) (f : Finset SessionId → Finset SessionId) :
    t.changeNode key f = { t with nodes := change t.nodes key f } := by
  cases key <;> rfl

theorem changeController_eq (key : Option ControllerId) (f : Finset SessionId → Finset SessionId) :
    t.changeController key f = { t with controllers := change t.controllers key f } := by
  cases key <;> rfl

def openedEntry (o : Opening) (persistTimeout : UInt32) : AgentSessionEntry :=
  { node := some o.node, controller := some o.requester, persistTimeout }

theorem opened_eq (t : SessionTables) (o : Opening) : ∃ linking, t.opened o =
    { t with
      nodes := change t.nodes (some o.node) (insert o.id)
      controllers := change t.controllers (some o.requester) (insert o.id)
      sessions :=
        match o.persistTimeout with
        | none => t.sessions
        | some timeout => update t.sessions o.id (some (openedEntry o timeout))
      opening := t.opening.filter fun other => other.id ≠ o.id
      linking } := by
  unfold opened
  cases o.persistTimeout with
  | none => exact ⟨t.linking, rfl⟩
  | some timeout => exact ⟨o.id :: t.linking, rfl⟩

theorem nodeOf_update (hs : after.sessions = update t.sessions id now) :
    after.nodeOf = update t.nodeOf id (now.bind AgentSessionEntry.node) := by
  funext i
  by_cases hi : i = id
  · simp [nodeOf, hs, hi]
  · simp [nodeOf, hs, hi]

theorem controllerOf_update (hs : after.sessions = update t.sessions id now) :
    after.controllerOf =
      update t.controllerOf id (now.bind AgentSessionEntry.controller) := by
  funext i
  by_cases hi : i = id
  · simp [controllerOf, hs, hi]
  · simp [controllerOf, hs, hi]

theorem nodeOf_eq (h : t.sessions id = some entry) : t.nodeOf id = entry.node := by
  simp [nodeOf, h]

theorem controllerOf_eq (h : t.sessions id = some entry) :
    t.controllerOf id = entry.controller := by
  simp [controllerOf, h]

/-- A session that was opened agrees with the tables if its peers are connected and its options
well formed, or if it leaves no trace. -/
theorem agrees_opened_iff (h : t.Agrees) (hnew : t.sessions o.id = none) :
    (t.opened o).Agrees ↔ (o.persistTimeout ≠ none ↔ t.nodes o.node ≠ none) ∧
      (o.persistTimeout ≠ none ↔ t.controllers o.requester ≠ none) := by
  obtain ⟨linking, hopened⟩ := t.opened_eq o
  have hnode : t.nodeOf o.id = none := by simp [nodeOf, hnew]
  have hcontroller : t.controllerOf o.id = none := by simp [controllerOf, hnew]
  rw [hopened, agrees_iff, and_iff_left h.found]
  cases htimeout : o.persistTimeout with
  | none =>
    simp only [ne_eq, not_true_eq_false, false_iff, not_not]
    exact and_congr (h.nodes.insert_iff hnode) (h.controllers.insert_iff hcontroller)
  | some timeout =>
    simp only [ne_eq, reduceCtorEq, not_false_eq_true, true_iff]
    rw [nodeOf_update rfl, controllerOf_update rfl]
    exact and_congr (h.nodes.assign_iff hnode) (h.controllers.assign_iff hcontroller)

/-- No peer, session or request is new, and no timer runs for a session with a controller. -/
structure Quiet (t after : SessionTables) : Prop where
  nodes : ∀ node, t.nodes node = none → after.nodes node = none
  controllers : ∀ controller, t.controllers controller = none → after.controllers controller = none
  sessions : ∀ id entry, after.sessions id = some entry → ∃ old, t.sessions id = some old ∧
    (entry.expiryTimer = true →
      entry.controller = none ∨ old.expiryTimer = true ∧ old.controller = entry.controller)
  opening : after.opening = t.opening
  nextSession : after.nextSession = t.nextSession

theorem Quiet.refl (t : SessionTables) : Quiet t t where
  nodes := fun _ h => h
  controllers := fun _ h => h
  sessions := fun _ entry h => ⟨entry, h, fun htimer => .inr ⟨htimer, rfl⟩⟩
  opening := rfl
  nextSession := rfl

theorem Quiet.trans (h : Quiet t after) (h' : Quiet after last) :
    Quiet t last where
  nodes := fun node hnode => h'.nodes node (h.nodes node hnode)
  controllers := fun controller hc => h'.controllers controller (h.controllers controller hc)
  sessions := by
    intro id entry hentry
    obtain ⟨mid, hmid, htimer'⟩ := h'.sessions id entry hentry
    obtain ⟨old, hold, htimer⟩ := h.sessions id mid hmid
    refine ⟨old, hold, fun hrun => ?_⟩
    rcases htimer' hrun with hnone | ⟨hrun', hsame⟩
    · exact .inl hnone
    · rw [← hsame]
      exact htimer hrun'
  opening := h'.opening.trans h.opening
  nextSession := h'.nextSession.trans h.nextSession

/-- One session changes: its peers, and with them the sets of those that are connected, its
proxy or its timer. -/
structure Changes (t : SessionTables) (id : SessionId) (was : AgentSessionEntry)
    (now : Option AgentSessionEntry) (after : SessionTables) : Prop where
  entry : t.sessions id = some was
  sessions : after.sessions = Function.update t.sessions id now
  nodes : Reassigns t.nodes t.nodeOf id (now.bind AgentSessionEntry.node) after.nodes
  controllers : Reassigns t.controllers t.controllerOf id (now.bind AgentSessionEntry.controller)
    after.controllers
  timer : ∀ entry, now = some entry → entry.expiryTimer = true →
    entry.controller = none ∨ was.expiryTimer = true ∧ was.controller = entry.controller
  rest : after.opening = t.opening ∧ after.nextSession = t.nextSession ∧
    after.missingEntry = t.missingEntry

section
variable {now : Option AgentSessionEntry}

theorem Changes.quiet (h : Changes t id entry now after) : Quiet t after where
  nodes := fun _ => h.nodes.eq_none
  controllers := fun _ => h.controllers.eq_none
  sessions := by
    intro i new hnew
    rw [h.sessions] at hnew
    rcases update_eq_some.mp hnew with ⟨rfl, hset⟩ | ⟨-, hold⟩
    · exact ⟨entry, h.entry, h.timer new hset⟩
    · exact (Quiet.refl t).sessions i new hold
  opening := h.rest.1
  nextSession := h.rest.2.1

theorem Changes.agrees (h : Changes t id entry now after) (hagrees : t.Agrees) : after.Agrees where
  nodes := nodeOf_update h.sessions ▸ h.nodes.indexes hagrees.nodes
  controllers := controllerOf_update h.sessions ▸ h.controllers.indexes hagrees.controllers
  found := h.rest.2.2.trans hagrees.found

end

theorem linkSession_eq (t : SessionTables) (id : SessionId) (entry : AgentSessionEntry) :
    ∃ linking, t.linkSession id entry = { t with linking } := by
  unfold linkSession
  split
  · exact ⟨t.linking, rfl⟩
  · exact ⟨id :: t.linking, rfl⟩

/-- What an operation leaves of tables that agree. -/
def Kept (t after : SessionTables) : Prop := after.Agrees ∧ Quiet t after

theorem Changes.kept (h : Changes t id entry now after)
    (hagrees : t.Agrees) : Kept t after := ⟨h.agrees hagrees, h.quiet⟩

theorem kept_linking (h : t.Agrees) (linking : List SessionId) : Kept t { t with linking } :=
  ⟨{ h with },
    ⟨fun _ h => h, fun _ h => h, (Quiet.refl t).sessions, rfl, rfl⟩⟩

theorem kept_linked (h : t.Agrees) : Kept t (t.linked id) := by
  unfold linked
  cases hentry : t.sessions id with
  | none =>
    simp only [hentry]
    exact kept_linking h _
  | some entry =>
    simp only [hentry]
    refine Changes.kept ⟨hentry, rfl, .same (nodeOf_eq hentry :), .same (controllerOf_eq hentry :),
      ?_, rfl, rfl, rfl⟩ h
    rintro now ⟨⟩ htimer
    exact .inr ⟨htimer, rfl⟩

/-- `reattach` fails, or the session had no controller. -/
theorem kept_reattach (h : t.Agrees) (hlive : t.controllers controller ≠ none) :
    Kept t (t.reattach id controller) := by
  unfold reattach
  cases hentry : t.sessions id with
  | none => exact kept_linking h _
  | some entry =>
    dsimp only
    split
    · exact kept_linking h _
    next hfree =>
      rw [not_or, not_not] at hfree
      obtain ⟨linking, hlink⟩ := linkSession_eq ((t.setSession id (some { entry with
        controller := some controller, expiryTimer := false })).changeController (some controller)
        (insert id)) id { entry with controller := some controller, expiryTimer := false }
      rw [hlink, changeController_eq]
      refine Changes.kept ⟨hentry, rfl, .same (nodeOf_eq hentry :),
        .assign ((controllerOf_eq hentry).trans hfree.1) hlive, ?_, rfl, rfl, rfl⟩ h
      rintro now ⟨⟩ ⟨⟩

/-- A node that is connected claims sessions without a node. -/
theorem kept_claimSessions (ids : List SessionId) (h : t.Agrees) (hlive : t.nodes node ≠ none) :
    Kept t (claimSessions node ids t).1 := by
  induction ids generalizing t with
  | nil => exact kept_linking h _
  | cons id ids ih =>
    unfold claimSessions
    cases hentry : t.sessions id with
    | none => exact ih h hlive
    | some entry =>
      dsimp only
      split
      · exact kept_linking h _
      next hfree =>
        rw [not_not] at hfree
        have hchange : Changes t id entry (some { entry with node := some node })
            { t.setSession id (some { entry with node := some node }) with
              nodes := change t.nodes (some node) (insert id) } :=
          ⟨hentry, rfl, .assign ((nodeOf_eq hentry).trans hfree) hlive,
            .same (controllerOf_eq hentry :), fun now hnow htimer => by
              cases hnow
              exact .inr ⟨htimer, rfl⟩, rfl, rfl, rfl⟩
        obtain ⟨hagrees, hquiet⟩ := ih (hchange.agrees h) (by simpa using hlive)
        exact ⟨hagrees, hchange.quiet.trans hquiet⟩

theorem kept_onAgentSessionExpired (h : t.Agrees) (hentry : t.sessions id = some entry)
    (hfree : entry.controller = none) : Kept t (t.onAgentSessionExpired id entry) := by
  unfold onAgentSessionExpired
  rw [changeNode_eq]
  exact Changes.kept ⟨hentry, rfl, .clear (by rw [nodeOf_eq hentry]; rfl),
    .same ((controllerOf_eq hentry).trans hfree), nofun, rfl, rfl, rfl⟩ h

theorem kept_onAgentSessionClosed (h : t.Agrees) : Kept t (t.onAgentSessionClosed node id) := by
  unfold onAgentSessionClosed
  split
  next hin =>
    have howner : t.nodeOf id = some node := (h.nodes node id).mp hin
    obtain ⟨entry, hentry, hnode⟩ := bind_eq_some_iff.mp howner
    simp only [changeNode_sessions, hentry]
    rw [changeController_eq, changeNode_eq]
    exact Changes.kept ⟨hentry, rfl, .clear (by rw [howner]; rfl),
      .clear (by rw [controllerOf_eq hentry]; rfl), nofun, rfl, rfl, rfl⟩ h
  next => exact kept_linking h _

/-- One of the sets of a session that is dropped is gone. -/
theorem reassigns_gone [DecidableEq κ] {k : κ} (hk : sets k = none) (howner : owner id = some k) :
    Reassigns sets owner id none sets := .clear (by rw [howner, change_of_none hk])

structure ClosingController (controller : ControllerId) (rest : Finset SessionId)
    (t : SessionTables) : Prop where
  nodes : Indexes t.nodes t.nodeOf
  controllers : IndexesBut controller rest t.controllers t.controllerOf
  found : t.missingEntry = false

theorem closingController_dropController {rest : Finset SessionId}
    (h : t.ClosingController controller rest) (hid : id ∈ rest) :
    (t.dropController id).ClosingController controller (rest.erase id) ∧
      Quiet t (t.dropController id) := by
  have howner := h.controllers.owner_eq hid
  obtain ⟨entry, hentry, -⟩ := bind_eq_some_iff.mp howner
  have hgone : Reassigns t.controllers t.controllerOf id none t.controllers :=
    reassigns_gone h.controllers.removed howner
  obtain ⟨now, hchange, hnone, hsame⟩ : ∃ now, Changes t id entry now (t.dropController id) ∧
      now.bind AgentSessionEntry.controller = none ∧
      (t.dropController id).controllers = t.controllers := by
    unfold dropController
    simp only [hentry, changeNode_eq]
    split
    · exact ⟨none, ⟨hentry, rfl, .clear (by rw [nodeOf_eq hentry]; rfl), hgone, by simp, rfl, rfl,
        rfl⟩, rfl, rfl⟩
    · refine ⟨_, ⟨hentry, rfl, .same (nodeOf_eq hentry :), hgone, ?_, rfl, rfl, rfl⟩, rfl, rfl⟩
      rintro now ⟨⟩ -
      exact .inl rfl
  refine ⟨⟨?_, ?_, hchange.rest.2.2.trans h.found⟩, hchange.quiet⟩
  · rw [nodeOf_update hchange.sessions]
    exact hchange.nodes.indexes h.nodes
  · rw [controllerOf_update hchange.sessions, hnone, hsame]
    exact h.controllers.clear hid

theorem kept_teardownControlChannel (h : t.Agrees) :
    Kept t (t.teardownControlChannel controller) := by
  unfold teardownControlChannel
  cases hids : t.controllers controller with
  | none => exact kept_linking h _
  | some ids =>
    have hremoved : Quiet t (t.setController controller none) :=
      ⟨fun _ h => h, fun c hc => by simp [setController, update_apply, hc],
        (Quiet.refl t).sessions, rfl, rfl⟩
    obtain ⟨hdone, hquiet⟩ := foldl_rest
      (M := fun rest now => now.ClosingController controller rest ∧ Quiet t now)
      (fun rest now id hmid hid => (closingController_dropController hmid.1 hid).imp_right
        hmid.2.trans) ids
      (t.setController controller none) ⟨⟨h.nodes, h.controllers.remove hids, h.found⟩, hremoved⟩
    exact ⟨⟨hdone.nodes, hdone.controllers.done, hdone.found⟩, hquiet⟩

structure ClosingNode (node : ConnectionId) (rest : Finset SessionId) (t : SessionTables) :
    Prop where
  nodes : IndexesBut node rest t.nodes t.nodeOf
  controllers : Indexes t.controllers t.controllerOf
  found : t.missingEntry = false

theorem closingNode_dropNode {rest : Finset SessionId} (h : t.ClosingNode node rest)
    (hid : id ∈ rest) :
    (t.dropNode id).ClosingNode node (rest.erase id) ∧ Quiet t (t.dropNode id) := by
  have howner := h.nodes.owner_eq hid
  have hgone : Reassigns t.nodes t.nodeOf id none t.nodes := reassigns_gone h.nodes.removed howner
  obtain ⟨entry, hentry, -⟩ := bind_eq_some_iff.mp howner
  have hclear : Reassigns t.controllers t.controllerOf id none
      (change t.controllers entry.controller (·.erase id)) :=
    .clear (by rw [controllerOf_eq hentry])
  obtain ⟨now, hchange, hnone, hsame⟩ : ∃ now, Changes t id entry now (t.dropNode id) ∧
      now.bind AgentSessionEntry.node = none ∧ (t.dropNode id).nodes = t.nodes := by
    unfold dropNode
    simp only [hentry, changeController_eq]
    split
    · exact ⟨none, ⟨hentry, rfl, hgone, hclear, by simp, rfl, rfl, rfl⟩, rfl, rfl⟩
    · refine ⟨_, ⟨hentry, rfl, hgone, hclear, ?_, rfl, rfl, rfl⟩, rfl, rfl⟩
      rintro now ⟨⟩ -
      exact .inl rfl
  refine ⟨⟨?_, ?_, hchange.rest.2.2.trans h.found⟩, hchange.quiet⟩
  · rw [nodeOf_update hchange.sessions, hnone, hsame]
    exact h.nodes.clear hid
  · rw [controllerOf_update hchange.sessions]
    exact hchange.controllers.indexes h.controllers

theorem kept_teardownClusterNode (h : t.Agrees) : Kept t (t.teardownClusterNode node) := by
  unfold teardownClusterNode
  cases hids : t.nodes node with
  | none => exact kept_linking h _
  | some ids =>
    have hremoved : Quiet t (t.setNode node none) :=
      ⟨fun n hn => by simp [setNode, update_apply, hn], fun _ h => h,
        (Quiet.refl t).sessions, rfl, rfl⟩
    obtain ⟨hdone, hquiet⟩ := foldl_rest
      (M := fun rest now => now.ClosingNode node rest ∧ Quiet t now)
      (fun rest now id hmid hid => (closingNode_dropNode hmid.1 hid).imp_right hmid.2.trans) ids
      (t.setNode node none) ⟨⟨h.nodes.remove hids, h.controllers, h.found⟩, hremoved⟩
    exact ⟨⟨hdone.nodes.done, hdone.controllers, hdone.found⟩, hquiet⟩

end

end SessionTables

namespace Service

open Machine SessionTables

/-- Identifiers are below the counters they come from, and a request that waits has an identifier
of its own. -/
structure Numbered (s : Service) : Prop where
  nodes : ∀ node, s.directory.nextConnectionId ≤ node → s.tables.nodes node = none
  controllers : ∀ id, s.directory.nextConnectionId ≤ id → s.tables.controllers (.remote id) = none
  channels : ∀ serial, s.nextChannel ≤ serial → s.tables.controllers (.inProcess serial) = none
  timers : ∀ id entry, s.tables.sessions id = some entry → entry.expiryTimer = true →
    entry.controller = none
  sessions : ∀ id entry, s.tables.sessions id = some entry →
    id < s.tables.nextSession ∧ ∀ o ∈ s.tables.opening, o.id ≠ id
  distinct : (s.tables.opening.map Opening.id).Nodup
  requests : ∀ o ∈ s.tables.opening, o.id < s.tables.nextSession

/-- A session that was opened has its peers connected and its options well formed, or neither
of the peers connected and its options malformed. -/
def OpenedInTime (s : Service) : Event → Prop
  | .opened id => ∀ o, s.findOpening id = some o →
      (o.persistTimeout ≠ none ↔ s.HasNode o.node) ∧
      (o.persistTimeout ≠ none ↔ s.HasController o.requester)
  | _ => True

section
variable {s t : Service} {e : Event}

theorem numbered_init : Numbered {} := by
  constructor <;> simp

theorem agrees_init : SessionTables.Agrees {} where
  nodes := fun _ _ => by simp [nodeOf]
  controllers := fun _ _ => by simp [controllerOf]
  found := rfl

theorem Numbered.quiet (h : s.Numbered) (hq : Quiet s.tables t.tables)
    (hnext : s.directory.nextConnectionId ≤ t.directory.nextConnectionId)
    (hchannel : s.nextChannel ≤ t.nextChannel) : t.Numbered where
  nodes := fun node hnode => hq.nodes node (h.nodes node (hnext.trans hnode))
  controllers := fun id hid => hq.controllers _ (h.controllers id (hnext.trans hid))
  channels := fun serial hserial => hq.controllers _ (h.channels serial (hchannel.trans hserial))
  timers := by
    intro id entry hentry hrun
    obtain ⟨old, hold, htimer⟩ := hq.sessions id entry hentry
    rcases htimer hrun with hnone | ⟨hrun', hsame⟩
    · exact hnone
    · rw [← hsame]
      exact h.timers id old hold hrun'
  sessions := by
    intro id entry hentry
    obtain ⟨old, hold, -⟩ := hq.sessions id entry hentry
    rw [hq.opening, hq.nextSession]
    exact h.sessions id old hold
  distinct := by
    rw [hq.opening]
    exact h.distinct
  requests := by
    rw [hq.opening, hq.nextSession]
    exact h.requests

def Keeps (s : Service) (e : Event) (t : Service) : Prop :=
  t.Numbered ∧ (t.tables.Agrees ↔ s.OpenedInTime e)

theorem keeps_of_kept (h : s.Numbered) (hk : Kept s.tables t.tables)
    (hnext : s.directory.nextConnectionId ≤ t.directory.nextConnectionId)
    (hchannel : s.nextChannel ≤ t.nextChannel) (hok : s.OpenedInTime e) : s.Keeps e t :=
  ⟨h.quiet hk.2 hnext hchannel, iff_of_true hk.1 hok⟩

theorem keeps_of_tables (h : s.Numbered) (hagrees : s.tables.Agrees)
    (htables : t.tables = s.tables)
    (hnext : s.directory.nextConnectionId ≤ t.directory.nextConnectionId)
    (hchannel : s.nextChannel ≤ t.nextChannel) (hok : s.OpenedInTime e) : s.Keeps e t :=
  keeps_of_kept h (htables ▸ kept_linking hagrees _) hnext hchannel hok

section
variable (d : Directory) (id : ConnectionId)
include d id

theorem nextConnectionId_doTag (tag : Tag) :
    (d.doTag id tag).nextConnectionId = d.nextConnectionId := by
  unfold doTag
  split <;> rfl

theorem nextConnectionId_doUntag (tag : Tag) :
    (d.doUntag id tag).nextConnectionId = d.nextConnectionId := by
  unfold doUntag
  split
  · rfl
  · split <;> rfl

theorem nextConnectionId_closeConnection :
    (d.closeConnection id).nextConnectionId = d.nextConnectionId := by
  unfold closeConnection
  split <;> rfl

end

theorem nextConnectionId_joinDirectory (node : ConnectionId) (acl : Acl) :
    (s.joinDirectory node acl).nextConnectionId = s.directory.nextConnectionId := by
  cases acl with
  | tags acl =>
    unfold joinDirectory addAcl
    dsimp only
    split <;> rfl
  | absent | malformed => rfl

section
variable (h : s.Numbered) (hagrees : s.tables.Agrees)
include h hagrees

theorem keeps_connectNode : s.Keeps .connectNode s.connectNode := by
  have hfree := h.nodes _ le_rfl
  refine ⟨⟨fun node hnode => ?_, fun id hid => h.controllers id (le_of_succ_le hid), h.channels,
    h.timers, h.sessions, h.distinct, h.requests⟩,
    iff_of_true ⟨hagrees.nodes.add hfree, hagrees.controllers, hagrees.found⟩ trivial⟩
  have hne : node ≠ s.directory.nextConnectionId := (lt_of_succ_le hnode).ne'
  simpa [connectNode, setNode, hne] using h.nodes node (le_of_succ_le hnode)

theorem keeps_connectController : s.Keeps .connectController s.connectController := by
  have hfree := h.controllers _ le_rfl
  refine ⟨⟨fun node hnode => h.nodes node (le_of_succ_le hnode), fun id hid => ?_,
    fun serial hserial => ?_, h.timers, h.sessions, h.distinct, h.requests⟩,
    iff_of_true ⟨hagrees.nodes, hagrees.controllers.add hfree, hagrees.found⟩ trivial⟩
  · have hne : id ≠ s.directory.nextConnectionId := (lt_of_succ_le hid).ne'
    simpa [connectController, setController, hne] using h.controllers id (le_of_succ_le hid)
  · simpa [connectController, setController] using h.channels serial hserial

theorem keeps_createChannel : s.Keeps .createChannel s.createChannel := by
  unfold createChannel
  split
  · exact keeps_of_tables h hagrees rfl le_rfl le_rfl trivial
  · have hfree := h.channels _ le_rfl
    refine ⟨⟨h.nodes, fun id hid => ?_, fun serial hserial => ?_, h.timers, h.sessions, h.distinct,
      h.requests⟩,
      iff_of_true ⟨hagrees.nodes, hagrees.controllers.add hfree, hagrees.found⟩ trivial⟩
    · simpa [setController] using h.controllers id hid
    · have hne : serial ≠ s.nextChannel := (lt_of_succ_le hserial).ne'
      simpa [setController, hne] using h.channels serial (le_of_succ_le hserial)

theorem keeps_destroyChannel : s.Keeps .destroyChannel s.destroyChannel := by
  unfold destroyChannel
  split
  · exact keeps_of_tables h hagrees rfl le_rfl le_rfl trivial
  · exact keeps_of_kept h (kept_teardownControlChannel hagrees) le_rfl le_rfl trivial

theorem keeps_disconnect {id : ConnectionId} (hstep : s.disconnect id = some t) :
    s.Keeps (.disconnect id) t := by
  unfold disconnect at hstep
  split at hstep
  · cases hstep
    exact keeps_of_kept h (kept_teardownClusterNode hagrees)
      (nextConnectionId_closeConnection s.directory id).ge le_rfl trivial
  · split at hstep
    · cases hstep
      exact keeps_of_kept h (kept_teardownControlChannel hagrees)
        (nextConnectionId_closeConnection s.directory id).ge le_rfl trivial
    · cases hstep

end

theorem nextChannel_join (hjoin : s.join node app state ids acl = some t) :
    t.nextChannel = s.nextChannel := by
  unfold join at hjoin
  split at hjoin
  · cases hjoin
    rfl
  · dsimp only at hjoin
    split at hjoin
    · obtain ⟨gating, -, rfl⟩ := map_eq_some_iff.mp hjoin
      rfl
    · cases hjoin
      rfl

theorem keeps_join (h : s.Numbered) (hagrees : s.tables.Agrees)
    (hlive : s.HasNode node) (hjoin : s.join node app state ids acl = some t) :
    s.Keeps (.join node app state ids acl) t := by
  have hchannel := (nextChannel_join hjoin).ge
  rcases join_eq_some hjoin with ⟨-, rfl⟩ | ⟨-, -, hdirectory, htables, -⟩
  · exact keeps_of_tables h hagrees rfl le_rfl le_rfl trivial
  · refine keeps_of_kept h ?_ ?_ hchannel trivial
    · rw [htables]
      exact kept_claimSessions ids hagrees (isSome_iff_ne_none.mp hlive)
    · rw [hdirectory, nextConnectionId_joinDirectory]

theorem keeps_attach (h : s.Numbered) (hagrees : s.tables.Agrees) :
    s.Keeps (.attach pid persistTimeout requester) (s.attach pid persistTimeout requester) := by
  unfold attach
  split
  · exact keeps_of_tables h hagrees rfl le_rfl le_rfl trivial
  · refine ⟨⟨h.nodes, h.controllers, h.channels, h.timers, fun id entry hentry => ?_, ?_,
      fun o ho => ?_⟩, iff_of_true { hagrees with } trivial⟩
    · obtain ⟨hlt, hnot⟩ := h.sessions id entry hentry
      refine ⟨lt_succ_of_lt hlt, fun o ho => ?_⟩
      rcases mem_cons.mp ho with rfl | ho
      · exact hlt.ne'
      · exact hnot o ho
    · refine nodup_cons.mpr ⟨fun hin => ?_, h.distinct⟩
      obtain ⟨o, ho, hid⟩ := mem_map.mp hin
      exact (h.requests o ho).ne hid
    · rcases mem_cons.mp ho with rfl | ho
      · exact lt_succ_self _
      · exact lt_succ_of_lt (h.requests o ho)

theorem Numbered.answered (h : s.Numbered) (o : Opening) (htables : t.tables.opening =
      s.tables.opening.filter fun other => other.id ≠ o.id) :
    (t.tables.opening.map Opening.id).Nodup ∧
      ∀ other ∈ t.tables.opening, other ∈ s.tables.opening ∧ other.id ≠ o.id := by
  rw [htables]
  refine ⟨h.distinct.sublist (filter_sublist.map _), fun other hin => ?_⟩
  obtain ⟨hother, hne⟩ := mem_filter.mp hin
  exact ⟨hother, by simpa using hne⟩

theorem keeps_openFailed {id : SessionId} (h : s.Numbered) (hagrees : s.tables.Agrees) :
    s.Keeps (.openFailed id) { s with tables := s.tables.openFailed o } := by
  obtain ⟨hnodup, hsub⟩ := h.answered (t := { s with tables := s.tables.openFailed o }) o rfl
  exact ⟨⟨h.nodes, h.controllers, h.channels, h.timers, fun id entry hentry =>
    ⟨(h.sessions id entry hentry).1, fun other hin => (h.sessions id entry hentry).2 other
      (hsub other hin).1⟩, hnodup, fun other hin => h.requests other (hsub other hin).1⟩,
    iff_of_true { hagrees with } trivial⟩

theorem sessions_opened {id : SessionId} (hentry : (s.tables.opened o).sessions id = some entry) :
    s.tables.sessions id = some entry ∨ id = o.id ∧ entry.expiryTimer = false := by
  obtain ⟨linking, hopened⟩ := s.tables.opened_eq o
  rw [hopened] at hentry
  cases htimeout : o.persistTimeout with
  | none =>
    rw [htimeout] at hentry
    exact .inl hentry
  | some timeout =>
    rw [htimeout] at hentry
    rcases update_eq_some.mp hentry with ⟨hid, hnow⟩ | ⟨-, hold⟩
    · cases hnow
      exact .inr ⟨hid, rfl⟩
    · exact .inl hold

theorem keeps_opened {id : SessionId} {o : Opening} (h : s.Numbered) (hagrees : s.tables.Agrees)
    (ho : s.findOpening id = some o) :
    s.Keeps (.opened id) { s with tables := s.tables.opened o } := by
  have hin : o ∈ s.tables.opening := mem_of_find?_eq_some ho
  have hnew : s.tables.sessions o.id = none := by
    by_contra hsome
    obtain ⟨entry, hentry⟩ := ne_none_iff_exists'.mp hsome
    exact (h.sessions o.id entry hentry).2 o hin rfl
  obtain ⟨linking, hopened⟩ := s.tables.opened_eq o
  have hopening : (s.tables.opened o).opening =
      s.tables.opening.filter fun other => other.id ≠ o.id := by rw [hopened]
  have hnext : (s.tables.opened o).nextSession = s.tables.nextSession := by rw [hopened]
  obtain ⟨hnodup, hsub⟩ := h.answered (t := { s with tables := s.tables.opened o }) o hopening
  refine ⟨⟨fun node hnode => ?_, fun i hi => ?_, fun serial hserial => ?_,
    fun i entry hentry hrun => ?_, fun i entry hentry => ?_, hnodup, fun other hother => ?_⟩, ?_⟩
  · rw [hopened]
    simpa using h.nodes node hnode
  · rw [hopened]
    simpa using h.controllers i hi
  · rw [hopened]
    simpa using h.channels serial hserial
  · rcases sessions_opened hentry with hold | ⟨-, hstopped⟩
    · exact h.timers i entry hold hrun
    · rw [hstopped] at hrun
      cases hrun
  · rw [hnext]
    rcases sessions_opened hentry with hold | ⟨rfl, -⟩
    · obtain ⟨hlt, hnot⟩ := h.sessions i entry hold
      exact ⟨hlt, fun other hother => hnot other (hsub other hother).1⟩
    · exact ⟨h.requests o hin, fun other hother => (hsub other hother).2⟩
  · rw [hnext]
    exact h.requests other (hsub other hother).1
  · rw [agrees_opened_iff hagrees hnew]
    simp [OpenedInTime, ho, HasNode, HasController, isSome_iff_ne_none]

theorem keeps_step (h : s.Numbered) (hagrees : s.tables.Agrees) (hstep : s.step e = some t) :
    s.Keeps e t := by
  cases e with
  | connectNode =>
    cases hstep
    exact keeps_connectNode h hagrees
  | connectController =>
    cases hstep
    exact keeps_connectController h hagrees
  | createChannel =>
    cases hstep
    exact keeps_createChannel h hagrees
  | destroyChannel =>
    cases hstep
    exact keeps_destroyChannel h hagrees
  | disconnect id => exact keeps_disconnect h hagrees hstep
  | tag id tag =>
    cases hstep
    exact keeps_of_tables h hagrees rfl (nextConnectionId_doTag ..).ge le_rfl trivial
  | untag id tag =>
    cases hstep
    exact keeps_of_tables h hagrees rfl (nextConnectionId_doUntag ..).ge le_rfl trivial
  | join node app state ids acl =>
    simp only [step] at hstep
    split at hstep
    next hlive => exact keeps_join h hagrees hlive hstep
    next => cases hstep
  | attach pid persistTimeout requester =>
    obtain ⟨-, ⟨⟩⟩ := ite_none_right_eq_some.mp hstep
    exact keeps_attach h hagrees
  | opened id =>
    obtain ⟨o, ho, rfl⟩ := map_eq_some_iff.mp hstep
    exact keeps_opened h hagrees ho
  | openFailed id =>
    obtain ⟨o, -, rfl⟩ := map_eq_some_iff.mp hstep
    exact keeps_openFailed h hagrees
  | sessionExpired id =>
    obtain ⟨entry, hentry, rfl⟩ := map_eq_some_iff.mp hstep
    obtain ⟨hentry, hrun⟩ := filter_eq_some_iff.mp hentry
    exact keeps_of_kept h (kept_onAgentSessionExpired hagrees hentry
      (h.timers id entry hentry hrun)) le_rfl le_rfl trivial
  | linked id =>
    obtain ⟨-, ⟨⟩⟩ := ite_none_right_eq_some.mp hstep
    exact keeps_of_kept h (kept_linked hagrees) le_rfl le_rfl trivial
  | linkFailed id =>
    obtain ⟨-, ⟨⟩⟩ := ite_none_right_eq_some.mp hstep
    exact keeps_of_kept h (kept_linking hagrees _) le_rfl le_rfl trivial
  | reattach id requester =>
    obtain ⟨hlive, ⟨⟩⟩ := ite_none_right_eq_some.mp hstep
    exact keeps_of_kept h (kept_reattach hagrees (isSome_iff_ne_none.mp hlive)) le_rfl
      le_rfl trivial
  | sessionClosed node id =>
    obtain ⟨-, ⟨⟩⟩ := ite_none_right_eq_some.mp hstep
    exact keeps_of_kept h (kept_onAgentSessionClosed hagrees) le_rfl le_rfl trivial
  | enumerate requester | kill pid requester | enableSpawnGating requester
  | disableSpawnGating requester | resume pid requester =>
    obtain ⟨-, ⟨⟩⟩ := ite_none_right_eq_some.mp hstep
    exact keeps_of_tables h hagrees rfl le_rfl le_rfl trivial

def TablesAgree (s : Service) : Prop :=
  (∀ node ids, s.tables.nodes node = some ids → ∀ id, id ∈ ids ↔
    ∃ entry, s.tables.sessions id = some entry ∧ entry.node = some node) ∧
  (∀ controller ids, s.tables.controllers controller = some ids → ∀ id, id ∈ ids ↔
    ∃ entry, s.tables.sessions id = some entry ∧ entry.controller = some controller) ∧
  (∀ id entry, s.tables.sessions id = some entry →
    (∀ node, entry.node = some node → s.HasNode node) ∧
    ∀ controller, entry.controller = some controller → s.HasController controller) ∧
  s.tables.missingEntry = false

theorem tablesAgree_iff_agrees : s.TablesAgree ↔ s.tables.Agrees := by
  constructor
  · rintro ⟨hnodes, hcontrollers, hentries, hfound⟩
    exact ⟨indexes_bind_iff.mpr ⟨hnodes, fun id entry he => (hentries id entry he).1⟩,
      indexes_bind_iff.mpr ⟨hcontrollers, fun id entry he => (hentries id entry he).2⟩, hfound⟩
  · intro h
    obtain ⟨hnodes, hlive⟩ := indexes_bind_iff.mp h.nodes
    obtain ⟨hcontrollers, hlive'⟩ := indexes_bind_iff.mp h.controllers
    exact ⟨hnodes, hcontrollers,
      fun id entry he => ⟨hlive id entry he, hlive' id entry he⟩, h.found⟩

/-- The tables agree in every state of a run exactly when every session is opened in time. -/
theorem sessionTables_iff (events : List Event) :
    Always step TablesAgree {} events ↔ EachStep step OpenedInTime {} events := by
  have hagrees : TablesAgree {} := tablesAgree_iff_agrees.mpr agrees_init
  refine always_iff_eachStep (fun s e t h hp hstep => ?_) numbered_init hagrees
  obtain ⟨hnumbered, hiff⟩ := keeps_step h (tablesAgree_iff_agrees.mp hp) hstep
  exact ⟨hnumbered, tablesAgree_iff_agrees.trans hiff⟩

def lateOpening : List Event :=
  [.connectNode, .join 1 ⟨"app", 7⟩ .running [] .absent, .connectController,
    .attach 7 (some 5) (.remote 2), .disconnect 2, .opened 0]

theorem entry_of_disconnected_controller :
    ∃ s, exec step {} lateOpening = some s ∧
      s.tables.sessions 0 = some ⟨some 1, some (.remote 2), 5, false, false⟩ ∧
      s.tables.controllers (.remote 2) = none ∧ ¬ s.TablesAgree := by
  obtain ⟨s, hs⟩ : ∃ s, exec step {} lateOpening = some s :=
    isSome_iff_exists.mp (by decide +kernel)
  have hfacts : s.tables.sessions 0 = some ⟨some 1, some (.remote 2), 5, false, false⟩ ∧
      s.tables.controllers (.remote 2) = none := by
    have hrun : (exec step {} lateOpening).map
        (fun s => (s.tables.sessions 0, s.tables.controllers (.remote 2))) =
      some (some ⟨some 1, some (.remote 2), 5, false, false⟩, none) := by decide +kernel
    rw [hs] at hrun
    simpa using hrun
  refine ⟨s, hs, hfacts.1, hfacts.2, fun hagree => ?_⟩
  have hlive := (hagree.2.2.1 0 _ hfacts.1).2 (.remote 2) rfl
  rw [HasController, hfacts.2] at hlive
  cases hlive

end

end Service

end FridaCore.Portal
