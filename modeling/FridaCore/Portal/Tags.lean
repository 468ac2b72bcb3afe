import FridaCore.Portal.Service

/-!
# Tags of a portal

The multimap of the tags and the tag sets of the connections agree as long as every 'acl' option
has only tags that the connection of the node has already. A tag that is taken back leaves a
node without a tag set with an empty one, and no remote controller has access to it any more.
-/

namespace FridaCore.Portal.Service

open Option Directory Gating

open Machine

def directoryAfter (s : Service) : Event → Directory
  | .connectNode => s.directory.registerConnection true
  | .connectController => s.directory.registerConnection false
  | .disconnect id => s.directory.closeConnection id
  | .tag id tag => s.directory.doTag id tag
  | .untag id tag => s.directory.doUntag id tag
  | .join node _ _ _ acl =>
    if s.gating.application node = none then s.joinDirectory node acl else s.directory
  | _ => s.directory

theorem directory_join {s t : Service} {node : ConnectionId} {app : Application}
    {state : SpawnStartState} {ids : List SessionId} {acl : Acl}
    (h : s.join node app state ids acl = some t) :
    t.directory = s.directoryAfter (.join node app state ids acl) := by
  rcases join_eq_some h with ⟨hfailed, rfl⟩ | ⟨happ, -, hdirectory, -⟩
  · rcases hfailed with happ | rfl
    · simp [directoryAfter, happ]
    · simp [directoryAfter, joinDirectory]
  · rw [hdirectory, directoryAfter, if_pos happ]

theorem directory_step {s t : Service} {e : Event} (h : s.step e = some t) :
    t.directory = s.directoryAfter e := by
  cases e with
  | disconnect id =>
    simp only [step, disconnect] at h
    split at h
    · cases h
      rfl
    · split at h
      · cases h
        rfl
      · cases h
  | join node app state ids acl =>
    simp only [step] at h
    split at h
    · exact directory_join h
    · cases h
  | createChannel =>
    cases h
    unfold createChannel
    split <;> rfl
  | destroyChannel =>
    cases h
    unfold destroyChannel
    split <;> rfl
  | attach pid persistTimeout requester =>
    simp only [step] at h
    split at h
    · cases h
      unfold attach
      split <;> rfl
    · cases h
  | opened id | openFailed id | sessionExpired id =>
    obtain ⟨o, -, rfl⟩ := map_eq_some_iff.mp h
    rfl
  | connectNode | connectController | tag id tag | untag id tag =>
    cases h
    rfl
  | enumerate requester | kill pid requester | enableSpawnGating requester
  | disableSpawnGating requester | resume pid requester | reattach id requester | linked id
  | linkFailed id | sessionClosed node id =>
    simp only [step] at h
    split at h
    · cases h
      rfl
    · cases h

def AclKnown (s : Service) : Event → Prop
  | .join node _ _ _ (.tags acl) => s.gating.application node = none →
      ∀ entry, s.directory.connections node = some entry → ∀ tag ∈ acl, tag ∈ entry.tags.getD ∅
  | _ => True

theorem given_directoryAfter {s : Service} (h : s.directory.Given) (e : Event) :
    (s.directoryAfter e).Given := by
  cases e with
  | connectNode => exact given_registerConnection h true
  | connectController => exact given_registerConnection h false
  | disconnect id => exact given_closeConnection h
  | tag id tag => exact given_doTag h
  | untag id tag => exact given_doUntag h
  | join node app state ids acl =>
    simp only [directoryAfter]
    split
    · cases acl with
      | tags acl => exact given_addAcl h acl
      | absent | malformed => exact h
    · exact h
  | _ => exact h

theorem consistent_directoryAfter {s : Service} (hg : s.directory.Given)
    (h : s.directory.Consistent) (e : Event) :
    (s.directoryAfter e).Consistent ↔ s.AclKnown e := by
  cases e with
  | connectNode => exact iff_of_true (consistent_registerConnection hg h true) trivial
  | connectController =>
    exact iff_of_true (consistent_registerConnection hg h false) trivial
  | disconnect id => exact iff_of_true (consistent_closeConnection h) trivial
  | tag id tag => exact iff_of_true (consistent_doTag h) trivial
  | untag id tag => exact iff_of_true (consistent_doUntag h) trivial
  | join node app state ids acl =>
    simp only [directoryAfter]
    split
    next happ =>
      cases acl with
      | tags acl =>
        cases hc : s.directory.connections node with
        | none =>
          have hsame : s.joinDirectory node (.tags acl) = s.directory := by
            simp only [joinDirectory, addAcl, hc]
          rw [hsame]
          exact iff_of_true h fun _ entry he => by simp [hc] at he
        | some entry =>
          refine (consistent_addAcl h hc acl).trans ⟨fun hall _ other he => ?_,
            fun hall => hall happ entry hc⟩
          rw [hc] at he
          cases he
          exact hall
      | absent | malformed => exact iff_of_true h trivial
    next happ =>
      cases acl with
      | tags acl => exact iff_of_true h fun hnone => absurd hnone happ
      | absent | malformed => exact iff_of_true h trivial
  | _ => exact iff_of_true h trivial

theorem given_init : ({} : Service).directory.Given where
  connections := by rintro id entry ⟨⟩
  tags p hp := absurd hp (Finset.notMem_empty p)

theorem consistent_init : ({} : Service).directory.Consistent := by
  rintro id entry ⟨⟩

def SameAccess (s : Service) (d : Directory) : Prop :=
  ∀ pid controller, s.HasController controller →
    s.gating.findNodeAccessibleBy d.canAccess controller pid =
      s.gating.findNodeAccessibleBy s.directory.canAccess controller pid

section
variable {d : Directory} {id node : ConnectionId} {entry : ConnectionEntry} {tag : Tag}
  (hc : d.connections id = some entry) (hnew : tag ∉ entry.tags.getD ∅)
include hc hnew

/-- Only the access to the connection itself can change, and only from a missing tag set. -/
theorem canAccess_doUntag_doTag (hsame : node ≠ id ∨ entry.tags ≠ none)
    (controller : ControllerId) :
    ((d.doTag id tag).doUntag id tag).canAccess node controller =
      d.canAccess node controller := by
  have htags := tagsOf_doUntag_doTag hc hnew
  have hold : d.tagsOf id = entry.tags := by simp [tagsOf, hc]
  cases controller with
  | inProcess serial => rfl
  | remote connection =>
    cases he : entry.tags with
    | some tags =>
      have hall : ((d.doTag id tag).doUntag id tag).tagsOf = d.tagsOf := by
        funext i
        by_cases hi : i = id
        · rw [htags, if_pos hi, hi, hold, he, getD_some]
        · rw [htags, if_neg hi]
      simp only [canAccess, hall]
    | none =>
      have hne : node ≠ id := hsame.resolve_right (not_not_intro he)
      by_cases hi : connection = id
      · subst hi
        cases hnode : d.tagsOf node <;> simp [canAccess, htags, hne, hold, he, hnode]
      · simp [canAccess, htags, hne, hi]

theorem canAccess_doUntag_doTag_self (he : entry.tags = none) (connection : ConnectionId) :
    ((d.doTag id tag).doUntag id tag).canAccess id (.remote connection) = false ∧
      d.canAccess id (.remote connection) = true := by
  have htags := tagsOf_doUntag_doTag hc hnew
  have hold : d.tagsOf id = none := by simp [tagsOf, hc, he]
  constructor
  · cases hconnection : ((d.doTag id tag).doUntag id tag).tagsOf connection <;>
      simp [canAccess, htags id, he, hconnection]
  · simp [canAccess, hold]

end

/-- The access changes for a node without a tag set, if a remote controller is connected. -/
theorem sameAccess_iff {s : Service} {id : ConnectionId} {entry : ConnectionEntry} {tag : Tag}
    (hc : s.directory.connections id = some entry) (hnew : tag ∉ entry.tags.getD ∅) :
    s.SameAccess ((s.directory.doTag id tag).doUntag id tag) ↔
      entry.tags ≠ none ∨ (∀ pid, s.gating.nodeAt pid ≠ some id) ∨
        ∀ connection, ¬ s.HasController (.remote connection) := by
  constructor
  · intro hsame
    by_contra hnone
    simp only [not_or, not_forall, not_not] at hnone
    obtain ⟨he, ⟨pid, hpid⟩, connection, hcontroller⟩ := hnone
    obtain ⟨hafter, hbefore⟩ := canAccess_doUntag_doTag_self hc hnew he connection
    have hfound := hsame pid _ hcontroller
    rw [findNodeAccessibleBy_of_nodeAt hpid, findNodeAccessibleBy_of_nodeAt hpid,
      hafter, hbefore] at hfound
    cases hfound
  · intro hcases pid controller hcontroller
    cases hnode : s.gating.nodeAt pid with
    | none => simp [findNodeAccessibleBy, hnode]
    | some node =>
      have haccess : ((s.directory.doTag id tag).doUntag id tag).canAccess node controller =
          s.directory.canAccess node controller := by
        rcases hcases with htags | hnot | hlocal
        · exact canAccess_doUntag_doTag hc hnew (.inr htags) controller
        · have hne : node ≠ id := by
            rintro rfl
            exact hnot pid hnode
          exact canAccess_doUntag_doTag hc hnew (.inl hne) controller
        · cases controller with
          | inProcess serial => rfl
          | remote connection => exact absurd hcontroller (hlocal connection)
      rw [findNodeAccessibleBy_of_nodeAt hnode, findNodeAccessibleBy_of_nodeAt hnode,
        haccess]

/-- **Tags.** While identifiers of connections do not repeat, the two tables agree in every state
of a run exactly if no node joins with a tag that is new to it. In any state, a tag that is given
and taken back leaves the access as it was exactly if the connection had a tag set, is not one of
a node that has joined, or no remote controller is connected. -/
theorem tags_iff (events : List Event) (_hids : events.countP Event.connects < 2 ^ 32) :
    (Always step (fun s => s.directory.Consistent) {} events ↔
      EachStep step AclKnown {} events) ∧
    ∀ (s : Service) (id : ConnectionId) (entry : ConnectionEntry) (tag : Tag),
      s.directory.connections id = some entry → tag ∉ entry.tags.getD ∅ →
      (s.SameAccess ((s.directory.doTag id tag).doUntag id tag) ↔
        entry.tags ≠ none ∨ (∀ pid, s.gating.nodeAt pid ≠ some id) ∨
          ∀ connection, ¬ s.HasController (.remote connection)) := by
  refine ⟨?_, fun s id entry tag => sameAccess_iff⟩
  have hinv : ∀ s e t, s.directory.Given → s.directory.Consistent → step s e = some t →
      t.directory.Given ∧ (t.directory.Consistent ↔ s.AclKnown e) := by
    intro s e t hg hcons h
    rw [directory_step h]
    exact ⟨given_directoryAfter hg e, consistent_directoryAfter hg hcons e⟩
  exact always_iff_eachStep hinv given_init consistent_init

def joinWithAcl : List Event := [.connectNode, .join 1 ⟨"app", 7⟩ .running [] (.tags ["a"])]

def nodeAndController : List Event :=
  [.connectNode, .join 1 ⟨"app", 7⟩ .running [] .absent, .connectController]

/-- The tag of the 'acl' option is not in the multimap. The node that joined without one can be
found by the controller, and not after a tag was given to it and taken back. -/
theorem acl_not_in_multimap :
    ¬ Always step (fun s => s.directory.Consistent) {} joinWithAcl ∧
    ∃ s, exec step {} nodeAndController = some s ∧
      s.gating.findNodeAccessibleBy s.directory.canAccess (.remote 2) 7 = some 1 ∧
      s.gating.findNodeAccessibleBy
        ((s.directory.doTag 1 "b").doUntag 1 "b").canAccess (.remote 2) 7 = none := by
  refine ⟨fun hall => ?_, _, rfl, by decide, by decide⟩
  have hlast := hall.exec (t := (exec step {} joinWithAcl).get rfl) rfl
  have hiff := hlast 1 ⟨true, some {"a"}⟩ rfl "a"
  exact absurd (hiff.mpr (by decide)) (by decide)

theorem tags_iff_sample :
    Always step (fun s => s.directory.Consistent) {} nodeAndController ∧
    ∃ s, exec step {} nodeAndController = some s ∧
      ¬ s.SameAccess ((s.directory.doTag 1 "b").doUntag 1 "b") := by
  obtain ⟨hagree, haccess⟩ := tags_iff nodeAndController (by decide)
  refine ⟨hagree.mpr ?_, _, rfl, fun hsame => ?_⟩
  · exact fun t _ => ⟨trivial, fun u _ => ⟨trivial, fun v _ => ⟨trivial, trivial⟩⟩⟩
  · rcases (haccess ((exec step {} nodeAndController).get rfl) 1 ⟨true, none⟩ "b" rfl
      (by decide)).mp hsame with htags | hnot | hlocal
    · exact htags rfl
    · exact hnot 7 (by decide)
    · exact hlocal 2 rfl

end FridaCore.Portal.Service
