import FridaCore.Portal.SpawnGating

/-!
# Access control of a portal

What a controller gains from an event: it gets to see a node, kills it, becomes an approver of
its spawn, or is linked to one of its sessions. The tags allow all of it, at the time of the
request, except for `reattach`, which does not look at them.
-/

namespace FridaCore.Portal

open List Option Function SessionTables List.Subset Directory Gating

namespace SessionTables

/-- Every controller that a session has now was its controller before, with the same node. -/
def KeepsControllers (t after : SessionTables) : Prop :=
  ∀ id entry controller, after.sessions id = some entry → entry.controller = some controller →
    ∃ old, t.sessions id = some old ∧ old.controller = some controller ∧ old.node = entry.node

def Attached (t : SessionTables) : Prop :=
  ∀ id entry, t.sessions id = some entry → entry.controller ≠ none → entry.node ≠ none

section
variable {t after : SessionTables} {id : SessionId} {entry : AgentSessionEntry}

theorem keepsControllers_of_sessions (h : after.sessions = t.sessions) :
    KeepsControllers t after := by
  intro i e c he hc
  rw [h] at he
  exact ⟨e, he, hc, rfl⟩

theorem KeepsControllers.trans (h : KeepsControllers t after)
    (h' : KeepsControllers after last) : KeepsControllers t last := by
  intro i e c he hc
  obtain ⟨mid, hmid, hmc, hmn⟩ := h' i e c he hc
  obtain ⟨old, hold, hoc, hon⟩ := h i mid c hmid hmc
  exact ⟨old, hold, hoc, hon.trans hmn⟩

theorem Attached.keeps (h : Attached t) (hk : KeepsControllers t after) : Attached after := by
  intro i e he hc
  obtain ⟨c, hc⟩ := ne_none_iff_exists'.mp hc
  obtain ⟨old, hold, hoc, hon⟩ := hk i e c he hc
  rw [← hon]
  exact h i old hold (by simp [hoc])

theorem keepsControllers_update (hs : after.sessions = update t.sessions id now)
    (hnow : ∀ e c, now = some e → e.controller = some c →
      ∃ old, t.sessions id = some old ∧ old.controller = some c ∧ old.node = e.node) :
    KeepsControllers t after := by
  intro i e c he hc
  rw [hs] at he
  rcases update_eq_some.mp he with ⟨rfl, hnow'⟩ | ⟨-, hold⟩
  · exact hnow e c hnow' hc
  · exact ⟨e, hold, hc, rfl⟩

/-- The sessions of a table without an entry for the session, or with one without a
controller. -/
theorem keepsControllers_clear (id : SessionId) (now : Option AgentSessionEntry)
    (hs : after.sessions = update t.sessions id now)
    (hnow : ∀ e, now = some e → e.controller = none) : KeepsControllers t after := by
  refine keepsControllers_update hs fun e c he hc => ?_
  rw [hnow e he] at hc
  cases hc

theorem dropController_keeps :
    KeepsControllers t (t.dropController id) ∧ (t.dropController id).opening = t.opening := by
  unfold dropController
  cases ht : t.sessions id with
  | none => exact ⟨keepsControllers_of_sessions rfl, rfl⟩
  | some entry =>
    dsimp only
    split
    · exact ⟨keepsControllers_clear id none (by simp [setSession]) (by simp), by
        simp [setSession]⟩
    · refine ⟨keepsControllers_clear id _ rfl ?_, rfl⟩
      rintro e ⟨⟩
      rfl

theorem dropNode_keeps :
    KeepsControllers t (t.dropNode id) ∧ (t.dropNode id).opening = t.opening := by
  unfold dropNode
  cases ht : t.sessions id with
  | none => exact ⟨keepsControllers_of_sessions rfl, rfl⟩
  | some entry =>
    dsimp only
    split
    · exact ⟨keepsControllers_clear id none (by simp [setSession]) (by simp), by
        simp [setSession]⟩
    · refine ⟨keepsControllers_clear id _
        (by simp only [setSession, changeController_sessions]; rfl) ?_, by simp [setSession]⟩
      rintro e ⟨⟩
      rfl

theorem foldl_keeps (hf : ∀ t id, KeepsControllers t (f t id) ∧ (f t id).opening = t.opening)
    (ids : List SessionId) (t : SessionTables) :
    KeepsControllers t (ids.foldl f t) ∧ (ids.foldl f t).opening = t.opening := by
  induction ids generalizing t with
  | nil => exact ⟨keepsControllers_of_sessions rfl, rfl⟩
  | cons id ids ih =>
    obtain ⟨hone, hopening⟩ := hf t id
    obtain ⟨hrest, hopening'⟩ := ih (f t id)
    exact ⟨hone.trans hrest, hopening'.trans hopening⟩

theorem teardownControlChannel_keeps (controller : ControllerId) :
    KeepsControllers t (t.teardownControlChannel controller) ∧
      (t.teardownControlChannel controller).opening = t.opening := by
  unfold teardownControlChannel
  split
  · exact ⟨keepsControllers_of_sessions rfl, rfl⟩
  · exact foldl_keeps (fun _ _ => dropController_keeps) _ _

theorem teardownClusterNode_keeps (node : ConnectionId) :
    KeepsControllers t (t.teardownClusterNode node) ∧
      (t.teardownClusterNode node).opening = t.opening := by
  unfold teardownClusterNode
  split
  · exact ⟨keepsControllers_of_sessions rfl, rfl⟩
  · exact foldl_keeps (fun _ _ => dropNode_keeps) _ _

/-- A session without a node has no controller, so a node that claims it gives it none. -/
theorem claimSessions_keeps (node : ConnectionId) (ids : List SessionId) (h : Attached t) :
    KeepsControllers t (claimSessions node ids t).1 ∧
      (claimSessions node ids t).1.opening = t.opening := by
  induction ids generalizing t with
  | nil => exact ⟨keepsControllers_of_sessions rfl, rfl⟩
  | cons id ids ih =>
    unfold claimSessions
    cases ht : t.sessions id with
    | none => exact ih h
    | some entry =>
      dsimp only
      split
      · exact ⟨keepsControllers_of_sessions rfl, rfl⟩
      next hnode =>
        rw [not_not] at hnode
        have hone : KeepsControllers t ((t.setSession id (some { entry with
            node := some node })).changeNode (some node) (insert id)) := by
          refine keepsControllers_clear id _
            (by simp only [changeNode_sessions, setSession]; rfl) ?_
          rintro e ⟨⟩
          by_contra hc
          exact h id entry ht hc hnode
        obtain ⟨hrest, hopening⟩ := ih (h.keeps hone)
        exact ⟨hone.trans hrest, hopening.trans (by simp [setSession])⟩

end

end SessionTables

namespace Service

open Machine

/-- A remote controller may use a node without a tag set, or with a tag that it has as well. -/
def Allowed (d : Directory) (node : ConnectionId) (controller : ControllerId) : Prop :=
  ∀ connection, controller = .remote connection → d.tagsOf node = none ∨
    ∃ acl tags tag, d.tagsOf node = some acl ∧ d.tagsOf connection = some tags ∧
      tag ∈ acl ∧ tag ∈ tags

theorem canAccess_iff_allowed :
    d.canAccess node controller = true ↔ Allowed d node controller := by
  constructor
  · rintro h connection rfl
    cases hnode : d.tagsOf node with
    | none => exact .inl rfl
    | some acl =>
      obtain ⟨tags, htags, tag, hacl, htag⟩ := canAccess_remote.mp h acl hnode
      exact .inr ⟨acl, tags, tag, rfl, htags, hacl, htag⟩
  · intro h
    cases controller with
    | inProcess serial => rfl
    | remote connection =>
      refine canAccess_remote.mpr fun acl hacl => ?_
      rcases h connection rfl with hnone | ⟨acl', tags, tag, hacl', htags, hin, htag⟩
      · cases hacl.symm.trans hnone
      · cases hacl.symm.trans hacl'
        exact ⟨tags, htags, tag, hin, htag⟩

/-- The controller is an approver of the spawn of the node, and was not before. -/
def BecomesApprover (s t : Service) (node : ConnectionId) (controller : ControllerId) : Prop :=
  ∃ spawn ∈ t.gating.pendingSpawn, spawn.node = node ∧ controller ∈ spawn.pendingApprovers ∧
    ∀ old ∈ s.gating.pendingSpawn, old.node = node → controller ∉ old.pendingApprovers

def BecomesLinked (s t : Service) (node : ConnectionId) (controller : ControllerId) : Prop :=
  ∃ id entry, t.tables.sessions id = some entry ∧ entry.node = some node ∧
    entry.controller = some controller ∧
    ∀ old, s.tables.sessions id = some old → old.controller ≠ some controller

/-- What a controller gains from an event, with the directory at the time of the request. The
request of a session that has been opened was made when the node was asked to open it. -/
inductive Gains (s t : Service) : Event → Directory → ConnectionId → ControllerId → Prop
  | listed {requester node} :
      node ∈ s.gating.allNodesAccessibleBy s.directory.canAccess requester →
      Gains s t (.enumerate requester) s.directory node requester
  | killed {pid requester node} :
      s.gating.findNodeAccessibleBy s.directory.canAccess requester pid = some node →
      Gains s t (.kill pid requester) s.directory node requester
  | approver {e node controller} :
      BecomesApprover s t node controller → Gains s t e t.directory node controller
  | opened {id o node controller} :
      s.findOpening id = some o → BecomesLinked s t node controller →
      Gains s t (.opened id) o.asked node controller
  | linked {e node controller} :
      (∀ id, e ≠ .opened id) → BecomesLinked s t node controller →
      Gains s t e s.directory node controller

/-- A controller that attaches to a session again would pass the check of `attach`. -/
def ReattachAllowed (s : Service) : Event → Prop
  | .reattach id requester => ∀ entry node, s.tables.sessions id = some entry →
      entry.controller = none → entry.node = some node →
      s.directory.canAccess node requester = true
  | _ => True

section
variable {s t : Service} {e : Event}

theorem not_becomesApprover (h : Gating.NoNewApprovers s.gating t.gating) :
    ¬ BecomesApprover s t node controller := by
  rintro ⟨spawn, hs, rfl, hc, hnot⟩
  obtain ⟨old, ho, hnode, hsubset⟩ := h spawn hs
  exact hnot old ho hnode (hsubset hc)

theorem noNewApprovers_of_same (h : t.gating = s.gating) :
    Gating.NoNewApprovers s.gating t.gating := by
  rw [h]
  exact fun spawn hs => ⟨spawn, hs, rfl, subset_rfl⟩

theorem canAccess_enableSpawnGating (h : s.Gates) (hgain : BecomesApprover s { s with
      gating := s.gating.enableSpawnGating s.directory.canAccess requester } node controller) :
    s.directory.canAccess node controller = true := by
  obtain ⟨spawn, hs, hnode, hc, hnot⟩ := hgain
  obtain ⟨old, ho, rfl⟩ := mem_map.mp hs
  by_cases hfound : (s.gating.findNodeAccessibleBy s.directory.canAccess requester old.pid).isSome
  · rw [if_pos hfound] at hnode hc
    obtain ⟨found, hfound⟩ := isSome_iff_exists.mp hfound
    obtain ⟨hat, haccess⟩ := findNodeAccessibleBy_eq_some.mp hfound
    rw [h.registered old ho] at hat
    cases hat
    rcases Finset.mem_insert.mp hc with rfl | hc
    · rwa [← hnode]
    · exact absurd hc (hnot old ho hnode)
  · rw [if_neg hfound] at hnode hc
    exact absurd hc (hnot old ho hnode)

theorem canAccess_join (hjoin : s.join node app state ids acl = some t)
    (hgain : BecomesApprover s t node' controller) :
    t.directory.canAccess node' controller = true := by
  rcases join_eq_some hjoin with ⟨-, rfl⟩ | ⟨-, -, -, -, hsame | hregister⟩
  · exact absurd hgain (not_becomesApprover (noNewApprovers_of_same rfl))
  · exact absurd hgain (not_becomesApprover (noNewApprovers_of_same hsame))
  · obtain ⟨spawn, hs, rfl, hc, hnot⟩ := hgain
    rcases register_approvers hregister spawn hs with hold | ⟨hnode, haccess⟩
    · exact absurd hc (hnot spawn hold rfl)
    · rw [hnode]
      exact haccess controller hc

theorem noNewApprovers_disconnect {id : ConnectionId} (h : s.Gates)
    (hstep : s.disconnect id = some t) : Gating.NoNewApprovers s.gating t.gating := by
  unfold disconnect at hstep
  split at hstep
  · cases hstep
    exact unregister_noNewApprovers id
  · split at hstep
    · cases hstep
      exact (disableSpawnGating_cases _ h).2.1
    · cases hstep

theorem noNewApprovers_destroyChannel (h : s.Gates) :
    Gating.NoNewApprovers s.gating s.destroyChannel.gating := by
  unfold destroyChannel
  split
  · exact noNewApprovers_of_same rfl
  · exact (disableSpawnGating_cases _ h).2.1

theorem canAccess_of_becomesApprover
    (h : s.Gates) (hstep : s.step e = some t) (hgain : BecomesApprover s t node controller) :
    t.directory.canAccess node controller = true := by
  have hno : ∀ {P : Prop}, Gating.NoNewApprovers s.gating t.gating → P := fun hnone =>
    absurd hgain (not_becomesApprover hnone)
  cases e with
  | disconnect id => exact hno (noNewApprovers_disconnect h hstep)
  | destroyChannel =>
    cases hstep
    exact hno (noNewApprovers_destroyChannel h)
  | join node' app state ids acl =>
    simp only [step] at hstep
    split at hstep
    · exact canAccess_join hstep hgain
    · cases hstep
  | enableSpawnGating requester =>
    obtain ⟨-, ⟨⟩⟩ := ite_none_right_eq_some.mp hstep
    exact canAccess_enableSpawnGating (s := s) h hgain
  | disableSpawnGating requester =>
    obtain ⟨-, ⟨⟩⟩ := ite_none_right_eq_some.mp hstep
    exact hno (disableSpawnGating_cases requester h).2.1
  | resume pid requester =>
    obtain ⟨-, ⟨⟩⟩ := ite_none_right_eq_some.mp hstep
    exact hno (resume_cases h pid requester).2.noNewApprovers
  | _ => exact hno (noNewApprovers_of_same (gating_step id hstep))

/-- Every session that waits for its node was asked for by a controller that may use it. -/
def Asked (t : SessionTables) : Prop :=
  ∀ o ∈ t.opening, Allowed o.asked o.node o.requester

/-- The session is asked for by the event, of a controller that may use it then. -/
structure Requested (s : Service) (e : Event) (o : Opening) : Prop where
  attach : ∃ pid, e = .attach pid o.persistTimeout o.requester
  asked : o.asked = s.directory
  allowed : Allowed s.directory o.node o.requester

structure Controlled (s : Service) : Prop where
  gates : s.Gates
  attached : s.tables.Attached
  asked : Asked s.tables

def KeepsSessions (s t : Service) : Prop :=
  s.tables.KeepsControllers t.tables ∧ t.tables.opening ⊆ s.tables.opening

theorem keepsSessions_of_same (h : t.tables.sessions = s.tables.sessions)
    (hopening : t.tables.opening = s.tables.opening) : KeepsSessions s t :=
  ⟨keepsControllers_of_sessions h, hopening ▸ refl _⟩

theorem keepsSessions_of_tables (h : t.tables = s.tables) : KeepsSessions s t :=
  keepsSessions_of_same (by rw [h]) (by rw [h])

theorem keepsSessions_disconnect {id : ConnectionId} (hstep : s.disconnect id = some t) :
    KeepsSessions s t := by
  unfold disconnect at hstep
  split at hstep
  · cases hstep
    obtain ⟨hkeeps, hopening⟩ := s.tables.teardownClusterNode_keeps id
    exact ⟨hkeeps, hopening ▸ refl _⟩
  · split at hstep
    · cases hstep
      obtain ⟨hkeeps, hopening⟩ := s.tables.teardownControlChannel_keeps (.remote id)
      exact ⟨hkeeps, hopening ▸ refl _⟩
    · cases hstep

theorem keepsSessions_destroyChannel : KeepsSessions s s.destroyChannel := by
  unfold destroyChannel
  split
  · exact keepsSessions_of_tables rfl
  next serial _ =>
    obtain ⟨hkeeps, hopening⟩ := s.tables.teardownControlChannel_keeps (.inProcess serial)
    exact ⟨hkeeps, hopening ▸ refl _⟩

theorem keepsSessions_join (h : s.tables.Attached)
    (hjoin : s.join node app state ids acl = some t) : KeepsSessions s t := by
  rcases join_eq_some hjoin with ⟨-, rfl⟩ | ⟨-, -, -, htables, -⟩
  · exact keepsSessions_of_tables rfl
  · obtain ⟨hkeeps, hopening⟩ := claimSessions_keeps node ids h
    rw [KeepsSessions, htables]
    exact ⟨hkeeps, hopening ▸ refl _⟩

theorem keepsSessions_linked {id : SessionId} :
    KeepsSessions s { s with tables := s.tables.linked id } := by
  unfold linked
  cases hentry : s.tables.sessions id with
  | none =>
    simp only [hentry]
    exact keepsSessions_of_same rfl rfl
  | some entry =>
    simp only [hentry]
    refine ⟨keepsControllers_update rfl ?_, refl _⟩
    rintro now c ⟨⟩ hc
    exact ⟨entry, hentry, hc, rfl⟩

theorem keepsSessions_sessionClosed {id : SessionId} :
    KeepsSessions s { s with tables := s.tables.onAgentSessionClosed node id } := by
  unfold onAgentSessionClosed
  split
  · dsimp only
    split
    · exact keepsSessions_of_same (by simp) (by simp)
    · exact ⟨keepsControllers_clear id none (by simp [setSession])
        (by simp), by simp [setSession]⟩
  · exact keepsSessions_of_tables rfl

def IsLink : Event → Prop
  | .attach .. | .opened _ | .reattach .. => True
  | _ => False

theorem keepsSessions_step (h : s.tables.Attached) (hlink : ¬ IsLink e)
    (hstep : s.step e = some t) : KeepsSessions s t := by
  cases e with
  | attach pid persistTimeout requester | opened id | reattach id requester =>
    exact absurd trivial hlink
  | disconnect id => exact keepsSessions_disconnect hstep
  | destroyChannel =>
    cases hstep
    exact keepsSessions_destroyChannel
  | createChannel =>
    cases hstep
    unfold createChannel
    split
    · exact keepsSessions_of_tables rfl
    · exact keepsSessions_of_same rfl rfl
  | connectNode | connectController =>
    cases hstep
    exact keepsSessions_of_same rfl rfl
  | tag id tag | untag id tag =>
    cases hstep
    exact keepsSessions_of_tables rfl
  | openFailed id =>
    obtain ⟨o, -, rfl⟩ := map_eq_some_iff.mp hstep
    exact ⟨keepsControllers_of_sessions rfl, filter_subset_self _⟩
  | sessionExpired id =>
    obtain ⟨entry, -, rfl⟩ := map_eq_some_iff.mp hstep
    exact ⟨keepsControllers_clear id none
      (by simp [onAgentSessionExpired, setSession]) (by simp),
      by simp [onAgentSessionExpired, setSession]⟩
  | join node app state ids acl =>
    simp only [step] at hstep
    split at hstep
    · exact keepsSessions_join h hstep
    · cases hstep
  | linked id =>
    obtain ⟨-, ⟨⟩⟩ := ite_none_right_eq_some.mp hstep
    exact keepsSessions_linked
  | sessionClosed node id =>
    obtain ⟨-, ⟨⟩⟩ := ite_none_right_eq_some.mp hstep
    exact keepsSessions_sessionClosed
  | enumerate requester | kill pid requester | enableSpawnGating requester
  | disableSpawnGating requester | resume pid requester | linkFailed id =>
    obtain ⟨-, ⟨⟩⟩ := ite_none_right_eq_some.mp hstep
    exact keepsSessions_of_same rfl rfl

theorem attach_opening : (s.attach pid persistTimeout requester).tables.sessions =
      s.tables.sessions ∧
    ∀ o ∈ (s.attach pid persistTimeout requester).tables.opening,
      o ∈ s.tables.opening ∨ s.Requested (.attach pid persistTimeout requester) o := by
  unfold attach
  cases hfound : s.gating.findNodeAccessibleBy s.directory.canAccess requester pid with
  | none => exact ⟨rfl, fun _ => .inl⟩
  | some node =>
    refine ⟨rfl, fun o ho => ?_⟩
    rcases mem_cons.mp ho with rfl | ho
    · exact .inr ⟨⟨pid, rfl⟩, rfl,
        canAccess_iff_allowed.mp (findNodeAccessibleBy_eq_some.mp hfound).2⟩
    · exact .inl ho

theorem opening_step (h : s.tables.Attached) (hstep : s.step e = some t)
    (ho : o ∈ t.tables.opening) : o ∈ s.tables.opening ∨ s.Requested e o := by
  by_cases hlink : IsLink e
  · cases e with
    | attach pid persistTimeout requester =>
      obtain ⟨-, ⟨⟩⟩ := ite_none_right_eq_some.mp hstep
      exact attach_opening.2 o ho
    | opened id =>
      obtain ⟨o', -, rfl⟩ := map_eq_some_iff.mp hstep
      have hkept : o ∈ s.tables.opening ∧ ¬ o.id = o'.id := by
        unfold opened at ho
        dsimp only at ho
        split at ho <;> simpa [setSession] using ho
      exact .inl hkept.1
    | reattach id requester =>
      obtain ⟨-, ⟨⟩⟩ := ite_none_right_eq_some.mp hstep
      unfold reattach at ho
      split at ho
      · exact .inl ho
      · split at ho
        · exact .inl ho
        · exact .inl (by simpa [setSession] using ho)
    | _ => cases hlink
  · exact .inl ((keepsSessions_step h hlink hstep).2 ho)

section
variable (h : Controlled s) (hstep : s.step e = some t)
include h hstep

/-- Every controller that a session has after an event was its controller before, or asked for
the session, or attaches to it again. -/
theorem controllers_step {id : SessionId} (hentry : t.tables.sessions id = some entry)
    (hc : entry.controller = some controller) :
    (∃ old, s.tables.sessions id = some old ∧ old.controller = some controller ∧
      old.node = entry.node) ∨
    (∃ o, e = .opened id ∧ s.findOpening id = some o ∧ entry.node = some o.node ∧
      controller = o.requester) ∨
    ∃ old node, e = .reattach id controller ∧ s.tables.sessions id = some old ∧
      old.controller = none ∧ old.node = some node ∧ entry.node = some node := by
  by_cases hlink : IsLink e
  · cases e with
    | attach pid persistTimeout requester =>
      obtain ⟨-, ⟨⟩⟩ := ite_none_right_eq_some.mp hstep
      rw [attach_opening.1] at hentry
      exact .inl ⟨entry, hentry, hc, rfl⟩
    | opened id' =>
      obtain ⟨o, ho, rfl⟩ := map_eq_some_iff.mp hstep
      have hid : o.id = id' := by simpa using find?_some ho
      unfold opened at hentry
      split at hentry
      · exact .inl ⟨entry, hentry, hc, rfl⟩
      · rcases update_eq_some.mp hentry with ⟨rfl, hnow⟩ | ⟨-, hold⟩
        · cases hnow
          cases hc
          exact .inr (.inl ⟨o, by rw [hid], hid ▸ ho, rfl, rfl⟩)
        · exact .inl ⟨entry, hold, hc, rfl⟩
    | reattach id' requester =>
      obtain ⟨-, ⟨⟩⟩ := ite_none_right_eq_some.mp hstep
      simp only [reattach] at hentry
      split at hentry
      · exact .inl ⟨entry, hentry, hc, rfl⟩
      next old hold =>
        split at hentry
        · exact .inl ⟨entry, hentry, hc, rfl⟩
        next hfree =>
          rw [not_or, not_not] at hfree
          obtain ⟨node, hnode⟩ := ne_none_iff_exists'.mp hfree.2
          simp only [linkSession_sessions, setSession,
            changeController_sessions] at hentry
          rcases update_eq_some.mp hentry with ⟨rfl, hnow⟩ | ⟨-, hsame⟩
          · cases hnow
            cases hc
            exact .inr (.inr ⟨old, node, rfl, hold, hfree.1, hnode, hnode⟩)
          · exact .inl ⟨entry, hsame, hc, rfl⟩
    | _ => cases hlink
  · exact .inl ((keepsSessions_step h.attached hlink hstep).1 id entry controller hentry hc)

theorem asked_step : Asked t.tables := by
  intro o ho
  rcases opening_step h.attached hstep ho with hold | hrequested
  · exact h.asked o hold
  · rw [hrequested.asked]
    exact hrequested.allowed

theorem controlled_step : Controlled t := by
  refine ⟨(gatesOn_step h.gates hstep).1, fun id entry hentry hc => ?_, asked_step h hstep⟩
  obtain ⟨controller, hc⟩ := ne_none_iff_exists'.mp hc
  rcases controllers_step h hstep hentry hc with ⟨old, hold, hoc, hnode⟩ |
    ⟨o, -, -, hnode, -⟩ | ⟨old, node, -, -, -, -, hnode⟩
  · rw [← hnode]
    exact h.attached id old hold (by simp [hoc])
  · simp [hnode]
  · simp [hnode]

end

def GainsAllowed (s : Service) (e : Event) : Prop :=
  ∀ t, s.step e = some t → ∀ d node controller, Gains s t e d node controller →
    Allowed d node controller

theorem gains_reattach {id : SessionId} (hentry : s.tables.sessions id = some entry)
    (hfree : entry.controller = none) (hnode : entry.node = some node)
    (hstep : s.step (.reattach id requester) = some t) :
    Gains s t (.reattach id requester) s.directory node requester := by
  obtain ⟨-, ⟨⟩⟩ := ite_none_right_eq_some.mp hstep
  refine .linked (by simp) ⟨id, { entry with
    controller := some requester, expiryTimer := false }, ?_, hnode, rfl, ?_⟩
  · simp [reattach, hentry, hfree, hnode, setSession]
  · intro old hold
    rw [hentry] at hold
    cases hold
    simp [hfree]

theorem linked_allowed (h : Controlled s) (hstep : s.step e = some t)
    (hreattach : ReattachAllowed s e) (hnot : ∀ id, e ≠ .opened id) {node : ConnectionId}
    (hgain : BecomesLinked s t node controller) :
    Allowed s.directory node controller := by
  obtain ⟨id, entry, hentry, hnode, hc, hnew⟩ := hgain
  rcases controllers_step h hstep hentry hc with ⟨old, hold, hoc, -⟩ | ⟨o, rfl, -⟩ |
    ⟨old, node', rfl, hold, hfree, hon, hnow⟩
  · exact absurd hoc (hnew old hold)
  · exact absurd rfl (hnot id)
  · cases hnode.symm.trans hnow
    exact canAccess_iff_allowed.mp (hreattach old node hold hfree hon)

theorem opened_allowed (h : Controlled s) {id : SessionId}
    (hstep : s.step (.opened id) = some t) (ho : s.findOpening id = some o)
    (hgain : BecomesLinked s t node controller) :
    Allowed o.asked node controller := by
  obtain ⟨i, entry, hentry, hnode, hc, hnew⟩ := hgain
  rcases controllers_step h hstep hentry hc with ⟨old, hold, hoc, -⟩ | ⟨o', heq, ho', hnow, rfl⟩ |
    ⟨old, node', heq, -⟩
  · exact absurd hoc (hnew old hold)
  · cases heq
    cases ho.symm.trans ho'
    cases hnode.symm.trans hnow
    exact h.asked o (mem_of_find?_eq_some ho)
  · cases heq

theorem gainsAllowed_iff_reattachAllowed (h : Controlled s) (hstep : s.step e = some t) :
    GainsAllowed s e ↔ ReattachAllowed s e := by
  constructor
  · intro hgains
    cases e with
    | reattach id requester =>
      exact fun entry node hentry hfree hnode =>
        canAccess_iff_allowed.mpr (hgains t hstep _ _ _
          (gains_reattach hentry hfree hnode hstep))
    | _ => trivial
  · rintro hreattach u hu d node controller hgain
    cases hgain with
    | listed hin => exact canAccess_iff_allowed.mp (mem_filter.mp hin).2
    | killed hfound =>
      exact canAccess_iff_allowed.mp (findNodeAccessibleBy_eq_some.mp hfound).2
    | approver hgain =>
      exact canAccess_iff_allowed.mp (canAccess_of_becomesApprover h.gates hu hgain)
    | opened ho hgain => exact opened_allowed h hu ho hgain
    | linked hnot hgain => exact linked_allowed h hu hreattach hnot hgain

theorem controlled_init : Controlled {} where
  gates := gated_init
  attached := by
    rintro id entry ⟨⟩
  asked := by
    rintro o ⟨⟩

theorem opening_requested {events : List Event} (hrun : exec step {} events = some s)
    (ho : o ∈ s.tables.opening) : ∃ a e b, Taken step {} events a e b ∧ a.Requested e o := by
  induction events using List.reverseRecOn generalizing s with
  | nil =>
    cases hrun
    cases ho
  | append_singleton events e ih =>
    rw [exec_append] at hrun
    obtain ⟨a, ha, hstep⟩ := bind_eq_some_iff.mp hrun
    have hstep : step a e = some s := by simpa [exec] using hstep
    have hcontrolled := (always_of_step (fun _ _ _ => controlled_step) controlled_init).exec ha
    rcases opening_step hcontrolled.attached hstep ho with hold | hrequested
    · obtain ⟨a', e', b, ⟨before, after, rfl, hbefore, hb⟩, hrequested⟩ := ih ha hold
      exact ⟨a', e', b, ⟨before, after ++ [e], by simp, hbefore, hb⟩, hrequested⟩
    · exact ⟨a, e, s, ⟨events, [], rfl, ha, hstep⟩, hrequested⟩

/-- In every state of every run a session with a controller has its node, and nodes are asked to
open sessions only for controllers that the tags allowed then: when, in the run, they asked. -/
theorem controllers_attached (events : List Event) :
    Always step (fun s => s.tables.Attached ∧ Asked s.tables) {} events ∧
      ∀ s, exec step {} events = some s → ∀ o ∈ s.tables.opening,
        ∃ a e b, Taken step {} events a e b ∧ a.Requested e o :=
  ⟨(always_of_step (fun _ _ _ => controlled_step) controlled_init).mono
    fun _ h => ⟨h.attached, h.asked⟩, fun _ hrun _ => opening_requested hrun⟩

/-- A controller without tags attaches to the session of one that had the tag of the node. -/
def takenSession : List Event :=
  [.connectNode, .join 1 ⟨"app", 7⟩ .running [] (.tags ["a"]), .connectController, .tag 2 "a",
    .attach 7 (some 5) (.remote 2), .opened 0, .linked 0, .disconnect 2, .connectController]

end

end Service

end FridaCore.Portal
