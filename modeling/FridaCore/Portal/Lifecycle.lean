import FridaCore.Portal.Directory
import FridaCore.Support.Machine

/-!
# The life of a connection of a portal

What `src/portal-service.vala` holds for one connection, from `handle_incoming_connection` to
`on_connection_closed`. Every `yield` is a point where it is suspended, the one for a call that
returns at once included. A failed assertion and a null that is dereferenced end the process.
A connection that is closed while it is being made, before `on_connection_closed` is connected to
it, is not modelled.
-/

namespace FridaCore.Portal

open List Option

inductive ObjectPath
  | authenticationService
  | portalSession
  | hostSession
  | busSession
  deriving DecidableEq, Repr

abbrev PeerId := Nat

structure RegisteredObject where
  path : ObjectPath
  owner : PeerId
  deriving DecidableEq, Repr

/-- Whether the endpoint is the one of the cluster, and has an authentication service. -/
structure EndpointParameters where
  cluster : Bool
  authService : Bool
  deriving DecidableEq, Repr

/-- Where `setup_authorized_peer` is suspended: in `get_proxy`, after `setup_cluster_node` has
returned, or at its own return. -/
inductive Stage
  | proxy
  | node
  | peer
  deriving DecidableEq, Repr

structure Lifecycle where
  incoming : Bool := true
  authenticating : Nat := 0
  setups : List (PeerId × Stage) := []
  entry : Option ConnectionEntry := none
  tags : Finset Tag := ∅
  peer : Option PeerId := none
  channel : Option PeerId := none
  objects : List RegisteredObject := []
  nextPeer : PeerId := 0
  connected : Nat := 0
  disconnected : Nat := 0
  closed : Bool := false
  crashed : Bool := false

namespace Lifecycle

inductive Event
  | connected
  | connectFailed
  | authenticate
  | authenticated
  | authenticationFailed
  | proxy (peer : PeerId)
  | proxyFailed (peer : PeerId)
  | nodeReturned (peer : PeerId)
  | peerReturned (peer : PeerId)
  | closed
  | tag (tag : Tag)
  | untag (tag : Tag)
  | addAcl (acl : List Tag)
  deriving DecidableEq, Repr

/-- `register_object` for each path. It fails for a path that is taken, which the code asserts
not to happen. -/
def register (owner : PeerId) (paths : List ObjectPath) (s : Lifecycle) : Lifecycle :=
  paths.foldl (fun s path =>
    if ∃ o ∈ s.objects, o.path = path then { s with crashed := true }
    else { s with objects := ⟨path, owner⟩ :: s.objects }) s

/-- The objects of a peer, which its `close` unregisters. -/
def unregister (owner : PeerId) (s : Lifecycle) : Lifecycle :=
  { s with objects := s.objects.filter fun o => o.owner ≠ owner }

/-- The objects of an `AuthenticationChannel`. -/
def unauthorizedPaths (p : EndpointParameters) : List ObjectPath :=
  if p.cluster then [.authenticationService, .portalSession]
  else [.authenticationService, .hostSession, .busSession]

/-- The objects of a `ClusterNode` or a `ControlChannel`. -/
def authorizedPaths (p : EndpointParameters) : List ObjectPath :=
  if p.cluster then [.portalSession, .authenticationService]
  else [.hostSession, .busSession, .authenticationService]

/-- The end of `setup_authorized_peer`, which throws if there is no entry any more. -/
def checkEntry (peer : PeerId) (s : Lifecycle) : Lifecycle :=
  match s.entry with
  | none => s
  | some _ => { s with setups := (peer, .peer) :: s.setups }

/-- `setup_authorized_peer`, up to where it is suspended. -/
def setupAuthorizedPeer (p : EndpointParameters) (s : Lifecycle) : Lifecycle :=
  let peer := s.nextPeer
  let s := register peer (authorizedPaths p) { s with nextPeer := s.nextPeer + 1 }
  if p.cluster then { s with setups := (peer, .proxy) :: s.setups } else checkEntry peer s

def setupUnauthorizedPeer (p : EndpointParameters) (s : Lifecycle) : Lifecycle :=
  let channel := s.nextPeer
  let s := register channel (unauthorizedPaths p) { s with nextPeer := s.nextPeer + 1 }
  { s with channel := some channel, peer := some channel }

/-- `handle_incoming_connection`, once there is a connection. -/
def registerConnection (p : EndpointParameters) (s : Lifecycle) : Lifecycle :=
  let s := { s with
    incoming := false, entry := some { cluster := p.cluster }, connected := s.connected + 1 }
  if p.authService then setupUnauthorizedPeer p s else setupAuthorizedPeer p s

/-- `promote_authentication_channel`. -/
def promoteAuthenticationChannel (p : EndpointParameters) (s : Lifecycle) : Lifecycle :=
  let s := { s with peer := none }
  let s := match s.channel with
    | none => s
    | some channel => unregister channel s
  setupAuthorizedPeer p s

def onConnectionClosed (s : Lifecycle) : Lifecycle :=
  match s.peer with
  | none => s
  | some peer =>
    let s := unregister peer { s with peer := none }
    match s.entry with
    | none => { s with crashed := true }
    | some entry =>
      { s with
        entry := none
        tags := s.tags \ entry.tags.getD ∅
        disconnected := s.disconnected + 1 }

/-- `do_tag`, `do_untag` and the 'acl' option, for this connection. -/
def changeTags (f : Option (Finset Tag) → Option (Finset Tag)) (g : Finset Tag → Finset Tag)
    (s : Lifecycle) : Lifecycle :=
  match s.entry with
  | none => s
  | some entry => { s with entry := some { entry with tags := f entry.tags }, tags := g s.tags }

def doTag (tag : Tag) : Lifecycle → Lifecycle :=
  changeTags (fun tags => some (insert tag (tags.getD ∅))) (insert tag)

def doUntag (tag : Tag) (s : Lifecycle) : Lifecycle :=
  if (s.entry.bind ConnectionEntry.tags) = none then s
  else changeTags (fun tags => tags.map (·.erase tag)) (·.erase tag) s

def addAcl (acl : List Tag) : Lifecycle → Lifecycle :=
  changeTags (fun tags => some (tags.getD ∅ ∪ acl.toFinset)) id

/-- The channel can be called as long as its object is there and the connection is open. -/
def HasChannel (s : Lifecycle) : Prop :=
  s.closed = false ∧ ∃ o ∈ s.objects, o.path = .authenticationService ∧ some o.owner = s.channel

instance (s : Lifecycle) : Decidable s.HasChannel := inferInstanceAs (Decidable (_ ∧ _))

def run (p : EndpointParameters) (s : Lifecycle) : Event → Option Lifecycle
  | .connected => if s.incoming then some (registerConnection p s) else none
  | .connectFailed => if s.incoming then some { s with incoming := false } else none
  | .authenticate =>
    if s.HasChannel then some { s with authenticating := s.authenticating + 1 } else none
  | .authenticated =>
    if s.authenticating = 0 then none
    else some (promoteAuthenticationChannel p { s with authenticating := s.authenticating - 1 })
  | .authenticationFailed =>
    if s.authenticating = 0 then none
    else some { s with authenticating := s.authenticating - 1 }
  | .proxy peer =>
    if (peer, .proxy) ∈ s.setups then
      some { s with setups := (peer, .node) :: s.setups.erase (peer, .proxy) }
    else none
  | .proxyFailed peer =>
    if (peer, .proxy) ∈ s.setups then some { s with setups := s.setups.erase (peer, .proxy) }
    else none
  | .nodeReturned peer =>
    if (peer, .node) ∈ s.setups then
      some (checkEntry peer { s with setups := s.setups.erase (peer, .node) })
    else none
  | .peerReturned peer =>
    if (peer, .peer) ∈ s.setups then
      some { s with setups := s.setups.erase (peer, .peer), peer := some peer }
    else none
  | .closed =>
    if s.connected = 0 ∨ s.closed = true then none
    else some (onConnectionClosed { s with closed := true })
  | .tag tag => some (doTag tag s)
  | .untag tag => some (doUntag tag s)
  | .addAcl acl => some (addAcl acl s)

def step (p : EndpointParameters) (s : Lifecycle) (e : Event) : Option Lifecycle :=
  if s.crashed then none else run p s e

def Finished (s : Lifecycle) : Prop :=
  s.incoming = false ∧ s.authenticating = 0 ∧ s.setups = []

/-- Nothing is left of the connection, and one signal was emitted for the other. -/
def Clean (s : Lifecycle) : Prop :=
  s.entry = none ∧ s.peer = none ∧ s.tags = ∅ ∧ s.objects = [] ∧ s.connected = 1 ∧
    s.disconnected = 1

/-- The connection is closed while its peer is published, and a promotion starts while the channel
is the peer. No proxy fails. -/
def InTime (s : Lifecycle) : Event → Prop
  | .closed => s.peer ≠ none
  | .authenticated => s.closed = false ∧ s.peer = s.channel
  | .proxyFailed _ => False
  | _ => True

section
variable {p : EndpointParameters} {s t : Lifecycle} {e : Event}

theorem register_spec (owner : PeerId) (paths : List ObjectPath) (s : Lifecycle) :
    ∃ objects crashed, register owner paths s = { s with objects, crashed } ∧
      s.objects ⊆ objects ∧ (s.crashed = true → crashed = true) ∧
      (∀ path ∈ paths, (∃ o ∈ s.objects, o.path = path) → crashed = true) ∧
      ∀ path ∈ paths, (¬ ∃ o ∈ s.objects, o.path = path) → ⟨path, owner⟩ ∈ objects := by
  induction paths generalizing s with
  | nil => exact ⟨s.objects, s.crashed, rfl, List.Subset.refl _, id, by simp, by simp⟩
  | cons path paths ih =>
    rw [register, foldl_cons]
    by_cases htaken : ∃ o ∈ s.objects, o.path = path
    · rw [if_pos htaken]
      obtain ⟨objects, crashed, hrest, hsub, hcrash, htook, hnew⟩ := ih { s with crashed := true }
      refine ⟨objects, crashed, hrest, hsub, fun _ => hcrash rfl, fun _ _ _ => hcrash rfl, ?_⟩
      rintro q hq hfree
      rcases mem_cons.mp hq with rfl | hq
      · exact absurd htaken hfree
      · exact hnew q hq hfree
    · rw [if_neg htaken]
      obtain ⟨objects, crashed, hrest, hsub, hcrash, htook, hnew⟩ :=
        ih { s with objects := ⟨path, owner⟩ :: s.objects }
      refine ⟨objects, crashed, hrest, fun o ho => hsub (mem_cons_of_mem _ ho), hcrash, ?_, ?_⟩
      · rintro q hq ⟨o, ho, rfl⟩
        rcases mem_cons.mp hq with hpath | hq
        · exact absurd ⟨o, ho, hpath⟩ htaken
        · exact htook o.path hq ⟨o, mem_cons_of_mem _ ho, rfl⟩
      · rintro q hq hfree
        by_cases hpath : q = path
        · subst hpath
          exact hsub mem_cons_self
        · refine hnew q ((mem_cons.mp hq).resolve_left hpath) ?_
          rintro ⟨o, ho, rfl⟩
          rcases mem_cons.mp ho with rfl | ho
          · exact hpath rfl
          · exact hfree ⟨o, ho, rfl⟩

theorem authenticationService_mem_authorizedPaths (p : EndpointParameters) :
    ObjectPath.authenticationService ∈ authorizedPaths p := by
  unfold authorizedPaths
  split <;> simp

/-- What a set-up changes. A service that is registered already makes it crash. -/
theorem setupAuthorizedPeer_spec (p : EndpointParameters) (s : Lifecycle) :
    ∃ objects crashed setups, setupAuthorizedPeer p s =
        { s with nextPeer := s.nextPeer + 1, objects, crashed, setups } ∧
      s.objects ⊆ objects ∧ (s.crashed = true → crashed = true) ∧
      (∀ x ∈ setups, x ∈ s.setups ∨ x.1 = s.nextPeer) ∧
      ((∃ o ∈ s.objects, o.path = .authenticationService) → crashed = true) ∧
      ((¬ ∃ o ∈ s.objects, o.path = .authenticationService) →
        ⟨.authenticationService, s.nextPeer⟩ ∈ objects) := by
  obtain ⟨objects, crashed, hregister, hsub, hcrash, htook, hnew⟩ :=
    register_spec s.nextPeer (authorizedPaths p) { s with nextPeer := s.nextPeer + 1 }
  have hpath := authenticationService_mem_authorizedPaths p
  unfold setupAuthorizedPeer
  simp only [hregister]
  split
  · refine ⟨objects, crashed, _, rfl, hsub, hcrash, fun x hx => ?_, htook _ hpath, hnew _ hpath⟩
    rcases mem_cons.mp hx with rfl | hx
    · exact .inr rfl
    · exact .inl hx
  · unfold checkEntry
    split
    · exact ⟨objects, crashed, s.setups, rfl, hsub, hcrash, fun x hx => .inl hx, htook _ hpath,
        hnew _ hpath⟩
    · refine ⟨objects, crashed, _, rfl, hsub, hcrash, fun x hx => ?_, htook _ hpath, hnew _ hpath⟩
      rcases mem_cons.mp hx with rfl | hx
      · exact .inr rfl
      · exact .inl hx

theorem setupAuthorizedPeer_of_empty (hobjects : s.objects = []) (hentry : s.entry ≠ none) :
    ∃ objects stage, setupAuthorizedPeer p s =
        { s with
          nextPeer := s.nextPeer + 1
          objects
          setups := (s.nextPeer, stage) :: s.setups } ∧
      (∀ o ∈ objects, o.owner = s.nextPeer) ∧
      ⟨.authenticationService, s.nextPeer⟩ ∈ objects := by
  obtain ⟨entry, hentry⟩ := ne_none_iff_exists'.mp hentry
  cases hcluster : p.cluster with
  | true =>
    exact ⟨[⟨.authenticationService, s.nextPeer⟩, ⟨.portalSession, s.nextPeer⟩], .proxy,
      by simp [setupAuthorizedPeer, register, authorizedPaths, hcluster, hobjects], by simp,
      by simp⟩
  | false =>
    exact ⟨[⟨.authenticationService, s.nextPeer⟩, ⟨.busSession, s.nextPeer⟩,
        ⟨.hostSession, s.nextPeer⟩], .peer,
      by simp [setupAuthorizedPeer, register, authorizedPaths, hcluster, hobjects, checkEntry,
        hentry], by simp, by simp⟩

theorem setupUnauthorizedPeer_of_empty (hobjects : s.objects = []) :
    ∃ objects, setupUnauthorizedPeer p s =
        { s with
          nextPeer := s.nextPeer + 1
          objects
          channel := some s.nextPeer
          peer := some s.nextPeer } ∧
      (∀ o ∈ objects, o.owner = s.nextPeer) ∧
      ⟨.authenticationService, s.nextPeer⟩ ∈ objects := by
  cases hcluster : p.cluster with
  | true =>
    exact ⟨[⟨.portalSession, s.nextPeer⟩, ⟨.authenticationService, s.nextPeer⟩],
      by simp [setupUnauthorizedPeer, register, unauthorizedPaths, hcluster, hobjects], by simp,
      by simp⟩
  | false =>
    exact ⟨[⟨.busSession, s.nextPeer⟩, ⟨.hostSession, s.nextPeer⟩,
        ⟨.authenticationService, s.nextPeer⟩],
      by simp [setupUnauthorizedPeer, register, unauthorizedPaths, hcluster, hobjects], by simp,
      by simp⟩

structure Idle (s : Lifecycle) : Prop where
  connected : s.connected = 0
  disconnected : s.disconnected = 0
  closed : s.closed = false
  authenticating : s.authenticating = 0
  setups : s.setups = []
  entry : s.entry = none
  tags : s.tags = ∅
  peer : s.peer = none
  channel : s.channel = none
  objects : s.objects = []

/-- The connection is open. All its objects belong to one peer, which is published or about to
be. -/
structure Live (owner : PeerId) (s : Lifecycle) : Prop where
  incoming : s.incoming = false
  connected : s.connected = 1
  disconnected : s.disconnected = 0
  closed : s.closed = false
  entry : ∃ entry, s.entry = some entry ∧ s.tags ⊆ entry.tags.getD ∅
  owners : ∀ o ∈ s.objects, o.owner = owner
  service : ⟨.authenticationService, owner⟩ ∈ s.objects
  below : owner < s.nextPeer
  channel : ∀ channel, s.channel = some channel → channel < s.nextPeer
  published : s.peer = some owner ∧ s.setups = [] ∨
    s.peer = none ∧ s.channel ≠ some owner ∧ ∃ stage, s.setups = [(owner, stage)]
  asked : s.authenticating ≠ 0 → s.channel ≠ none

structure Gone (s : Lifecycle) : Prop where
  incoming : s.incoming = false
  closed : s.closed = true
  setups : s.setups = []
  clean : s.Clean
  channel : ∀ channel, s.channel = some channel → channel < s.nextPeer

inductive Healthy (s : Lifecycle) : Prop
  | idle (h : s.Idle)
  | live (owner : PeerId) (h : s.Live owner)
  | gone (h : s.Gone)

theorem healthy_registerConnection (h : s.Idle) (hcrashed : s.crashed = false) :
    (registerConnection p s).crashed = false ∧ (registerConnection p s).Healthy := by
  unfold registerConnection
  split
  · obtain ⟨objects, hsetup, howners, hservice⟩ := setupUnauthorizedPeer_of_empty (p := p)
      (s := { s with
        incoming := false, entry := some { cluster := p.cluster }, connected := s.connected + 1 })
      h.objects
    rw [hsetup]
    refine ⟨hcrashed, .live s.nextPeer ?_⟩
    exact {
      incoming := rfl
      connected := by simp [h.connected]
      disconnected := h.disconnected
      closed := h.closed
      entry := ⟨_, rfl, by simp [h.tags]⟩
      owners := howners
      service := hservice
      below := Nat.lt_succ_self _
      channel := by simp
      published := .inl ⟨rfl, h.setups⟩
      asked := by simp }
  · obtain ⟨objects, stage, hsetup, howners, hservice⟩ := setupAuthorizedPeer_of_empty (p := p)
      (s := { s with
        incoming := false, entry := some { cluster := p.cluster }, connected := s.connected + 1 })
      h.objects (by simp)
    rw [hsetup]
    refine ⟨hcrashed, .live s.nextPeer ?_⟩
    exact {
      incoming := rfl
      connected := by simp [h.connected]
      disconnected := h.disconnected
      closed := h.closed
      entry := ⟨_, rfl, by simp [h.tags]⟩
      owners := howners
      service := hservice
      below := Nat.lt_succ_self _
      channel := by simp [h.channel]
      published := .inr ⟨h.peer, by simp [h.channel], stage, by simp [h.setups]⟩
      asked := by simp [h.authenticating] }

theorem promoteAuthenticationChannel_eq {channel : PeerId} (h : s.channel = some channel) :
    promoteAuthenticationChannel p s =
      setupAuthorizedPeer p (unregister channel { s with peer := none }) := by
  unfold promoteAuthenticationChannel
  dsimp only
  split
  next hnone => cases hnone.symm.trans h
  next found hfound =>
    cases hfound.symm.trans h
    rfl

theorem live_promoteAuthenticationChannel {channel : PeerId} (h : s.Live channel)
    (hchannel : s.channel = some channel) (hpeer : s.peer = some channel)
    (hcrashed : s.crashed = false) :
    (promoteAuthenticationChannel p s).crashed = false ∧
      (promoteAuthenticationChannel p s).Healthy := by
  have hempty : s.objects.filter (fun o => o.owner ≠ channel) = [] := by
    simpa using h.owners
  have hsetups : s.setups = [] := by
    rcases h.published with ⟨-, hsetups⟩ | ⟨hnone, -⟩
    · exact hsetups
    · cases hpeer.symm.trans hnone
  obtain ⟨entry, hentry, htags⟩ := h.entry
  obtain ⟨objects, stage, hsetup, howners, hservice⟩ := setupAuthorizedPeer_of_empty (p := p)
    (s := unregister channel { s with peer := none }) hempty (by simp [unregister, hentry])
  rw [promoteAuthenticationChannel_eq hchannel, hsetup]
  refine ⟨hcrashed, .live s.nextPeer ?_⟩
  exact {
    incoming := h.incoming
    connected := h.connected
    disconnected := h.disconnected
    closed := h.closed
    entry := ⟨entry, hentry, htags⟩
    owners := howners
    service := hservice
    below := Nat.lt_succ_self _
    channel := fun c hc => Nat.lt_succ_of_lt (h.channel c hc)
    published := .inr ⟨rfl, by simpa [unregister, hchannel] using h.below.ne, stage,
      by simp [unregister, hsetups]⟩
    asked := h.asked }

theorem gone_onConnectionClosed (h : s.Live owner) (hpeer : s.peer = some owner)
    (hsetups : s.setups = []) (hcrashed : s.crashed = false) :
    (onConnectionClosed { s with closed := true }).crashed = false ∧
      (onConnectionClosed { s with closed := true }).Healthy := by
  obtain ⟨entry, hentry, htags⟩ := h.entry
  have hempty : s.objects.filter (fun o => o.owner ≠ owner) = [] := by
    simpa using h.owners
  unfold onConnectionClosed
  simp only [hpeer, unregister, hentry]
  refine ⟨hcrashed, .gone ?_⟩
  exact {
    incoming := h.incoming
    closed := rfl
    setups := hsetups
    clean := ⟨rfl, rfl, Finset.sdiff_eq_empty_iff_subset.mpr htags, hempty, h.connected,
      by simp [h.disconnected]⟩
    channel := h.channel }

theorem healthy_changeTags (h : s.Healthy) (hcrashed : s.crashed = false)
    (hfg : ∀ entry, s.entry = some entry → s.tags ⊆ entry.tags.getD ∅ →
      g s.tags ⊆ (f entry.tags).getD ∅) :
    (changeTags f g s).crashed = false ∧ (changeTags f g s).Healthy := by
  unfold changeTags
  cases h with
  | idle h =>
    simp only [h.entry]
    exact ⟨hcrashed, .idle h⟩
  | live owner h =>
    obtain ⟨entry, hentry, htags⟩ := h.entry
    simp only [hentry]
    exact ⟨hcrashed, .live owner { h with entry := ⟨_, rfl, hfg entry hentry htags⟩ }⟩
  | gone h =>
    simp only [h.clean.1]
    exact ⟨hcrashed, .gone h⟩

theorem healthy_doUntag (h : s.Healthy) (hcrashed : s.crashed = false) :
    (doUntag tag s).crashed = false ∧ (doUntag tag s).Healthy := by
  unfold doUntag
  split
  · exact ⟨hcrashed, h⟩
  · refine healthy_changeTags h hcrashed fun entry hentry htags => ?_
    cases hset : entry.tags with
    | none =>
      rw [hset] at htags
      exact (Finset.erase_subset _ _).trans htags
    | some tags =>
      rw [hset] at htags
      exact Finset.erase_subset_erase tag htags

def IsTag : Event → Prop
  | .tag _ | .untag _ | .addAcl _ => True
  | _ => False

theorem healthy_run_tag (h : s.Healthy) (hcrashed : s.crashed = false) (htag : IsTag e)
    (hstep : run p s e = some t) : t.crashed = false ∧ t.Healthy := by
  cases e with
  | tag tag =>
    cases hstep
    exact healthy_changeTags h hcrashed fun entry _ htags => Finset.insert_subset_insert tag htags
  | untag tag =>
    cases hstep
    exact healthy_doUntag h hcrashed
  | addAcl acl =>
    cases hstep
    exact healthy_changeTags h hcrashed fun entry _ htags =>
      htags.trans Finset.subset_union_left
  | _ => cases htag

theorem healthy_run_idle (h : s.Idle) (hcrashed : s.crashed = false) (htag : ¬ IsTag e)
    (hstep : run p s e = some t) : t.crashed = false ∧ t.Healthy := by
  cases e with
  | connected =>
    obtain ⟨-, ⟨⟩⟩ := ite_none_right_eq_some.mp hstep
    exact healthy_registerConnection h hcrashed
  | connectFailed =>
    obtain ⟨-, ⟨⟩⟩ := ite_none_right_eq_some.mp hstep
    exact ⟨hcrashed, .idle { h with }⟩
  | authenticate => simp [run, HasChannel, h.objects] at hstep
  | authenticated | authenticationFailed => simp [run, h.authenticating] at hstep
  | proxy peer | proxyFailed peer | nodeReturned peer | peerReturned peer =>
    simp [run, h.setups] at hstep
  | closed => simp [run, h.connected] at hstep
  | tag tag | untag tag | addAcl acl => exact absurd trivial htag

theorem Live.setup {owner peer : PeerId} (h : s.Live owner) (hin : (peer, stage) ∈ s.setups) :
    peer = owner ∧ s.setups = [(owner, stage)] ∧ s.peer = none ∧ s.channel ≠ some owner := by
  rcases h.published with ⟨-, hnone⟩ | ⟨hpeer, hchannel, stage', hone⟩
  · simp [hnone] at hin
  · rw [hone] at hin
    cases mem_singleton.mp hin
    exact ⟨rfl, hone, hpeer, hchannel⟩

theorem healthy_run_live (h : s.Live owner) (hcrashed : s.crashed = false)
    (htag : ¬ IsTag e) (hok : s.InTime e) (hstep : run p s e = some t) :
    t.crashed = false ∧ t.Healthy := by
  cases e with
  | connected | connectFailed => simp [run, h.incoming] at hstep
  | authenticate =>
    obtain ⟨hchannel, ⟨⟩⟩ := ite_none_right_eq_some.mp hstep
    obtain ⟨-, o, -, -, howner⟩ := hchannel
    exact ⟨hcrashed, .live owner { h with asked := fun _ => by simp [← howner] }⟩
  | authenticated =>
    obtain ⟨hasked, ⟨⟩⟩ := ite_none_left_eq_some.mp hstep
    obtain ⟨channel, hchannel⟩ := ne_none_iff_exists'.mp (h.asked hasked)
    have hpeer : s.peer = some channel := hok.2.trans hchannel
    have howner : channel = owner := by
      rcases h.published with ⟨hp, -⟩ | ⟨hp, -⟩
      · exact some.inj (hpeer.symm.trans hp)
      · cases hpeer.symm.trans hp
    subst howner
    exact live_promoteAuthenticationChannel
      (s := { s with authenticating := s.authenticating - 1 })
      { h with asked := fun _ => h.asked hasked } hchannel hpeer hcrashed
  | authenticationFailed =>
    obtain ⟨hasked, ⟨⟩⟩ := ite_none_left_eq_some.mp hstep
    exact ⟨hcrashed, .live owner { h with asked := fun _ => h.asked hasked }⟩
  | proxy peer =>
    obtain ⟨hin, ⟨⟩⟩ := ite_none_right_eq_some.mp hstep
    obtain ⟨rfl, hone, hpeer, hchannel⟩ := h.setup hin
    exact ⟨hcrashed, .live peer { h with
      published := .inr ⟨hpeer, hchannel, .node, by simp [hone]⟩ }⟩
  | proxyFailed peer => cases hok
  | nodeReturned peer =>
    obtain ⟨hin, ⟨⟩⟩ := ite_none_right_eq_some.mp hstep
    obtain ⟨rfl, hone, hpeer, hchannel⟩ := h.setup hin
    obtain ⟨entry, hentry, htags⟩ := h.entry
    simp only [checkEntry, hentry]
    exact ⟨hcrashed, .live peer { h with
      entry := ⟨entry, rfl, htags⟩
      published := .inr ⟨hpeer, hchannel, .peer, by simp [hone]⟩ }⟩
  | peerReturned peer =>
    obtain ⟨hin, ⟨⟩⟩ := ite_none_right_eq_some.mp hstep
    obtain ⟨rfl, hone, hpeer, hchannel⟩ := h.setup hin
    exact ⟨hcrashed, .live peer { h with published := .inl ⟨rfl, by simp [hone]⟩ }⟩
  | closed =>
    obtain ⟨-, ⟨⟩⟩ := ite_none_left_eq_some.mp hstep
    rcases h.published with ⟨hpeer, hsetups⟩ | ⟨hpeer, -⟩
    · exact gone_onConnectionClosed h hpeer hsetups hcrashed
    · exact absurd hpeer hok
  | tag tag | untag tag | addAcl acl => exact absurd trivial htag

theorem healthy_run_gone (h : s.Gone) (hcrashed : s.crashed = false) (htag : ¬ IsTag e)
    (hok : s.InTime e) (hstep : run p s e = some t) : t.crashed = false ∧ t.Healthy := by
  cases e with
  | connected | connectFailed => simp [run, h.incoming] at hstep
  | authenticate => simp [run, HasChannel, h.closed] at hstep
  | authenticated => cases hok.1.symm.trans h.closed
  | authenticationFailed =>
    obtain ⟨-, ⟨⟩⟩ := ite_none_left_eq_some.mp hstep
    exact ⟨hcrashed, .gone { h with }⟩
  | proxy peer | proxyFailed peer | nodeReturned peer | peerReturned peer =>
    simp [run, h.setups] at hstep
  | closed => simp [run, h.closed] at hstep
  | tag tag | untag tag | addAcl acl => exact absurd trivial htag

theorem healthy_run (h : s.crashed = false ∧ s.Healthy) (hok : s.InTime e)
    (hstep : run p s e = some t) : t.crashed = false ∧ t.Healthy := by
  obtain ⟨hcrashed, h⟩ := h
  by_cases htag : IsTag e
  · exact healthy_run_tag h hcrashed htag hstep
  · cases h with
    | idle h => exact healthy_run_idle h hcrashed htag hstep
    | live owner h => exact healthy_run_live h hcrashed htag hok hstep
    | gone h => exact healthy_run_gone h hcrashed htag hok hstep

/-- An object that no `close` unregisters any more. -/
structure Orphan (s : Lifecycle) (o : RegisteredObject) : Prop where
  registered : o ∈ s.objects
  below : o.owner < s.nextPeer
  channel : s.channel ≠ some o.owner
  peer : s.closed = true ∨ s.peer ≠ some o.owner ∧ ∀ stage, (o.owner, stage) ∉ s.setups

/-- The process has crashed, or something is left of the connection for good. -/
def Doomed (s : Lifecycle) : Prop :=
  s.incoming = false ∧
    (s.crashed = true ∨ s.closed = true ∧ s.entry ≠ none ∨ ∃ o, s.Orphan o)

section
variable (h : s.Doomed)
include h

theorem Doomed.imp (hincoming : t.incoming = s.incoming)
    (hcrashed : s.crashed = true → t.crashed = true)
    (hentry : s.closed = true → s.entry ≠ none → t.closed = true ∧ t.entry ≠ none)
    (horphan : ∀ o, s.Orphan o → t.Orphan o) : t.Doomed := by
  refine ⟨hincoming.trans h.1, ?_⟩
  rcases h.2 with hs | ⟨hclosed, hs⟩ | ⟨o, ho⟩
  · exact .inl (hcrashed hs)
  · exact .inr (.inl (hentry hclosed hs))
  · exact .inr (.inr ⟨o, horphan o ho⟩)

theorem doomed_setupAuthorizedPeer : (setupAuthorizedPeer p s).Doomed := by
  obtain ⟨objects, crashed, setups, hsetup, hsub, hcrash, hsetups, -⟩ :=
    setupAuthorizedPeer_spec p s
  rw [hsetup]
  refine h.imp rfl hcrash .intro fun o ho =>
    ⟨hsub ho.registered, Nat.lt_succ_of_lt ho.below, ho.channel, ?_⟩
  rcases ho.peer with hclosed | ⟨hpeer, hnot⟩
  · exact .inl hclosed
  · refine .inr ⟨hpeer, fun stage hin => ?_⟩
    rcases hsetups _ hin with hold | hnew
    · exact hnot stage hold
    · exact ho.below.ne hnew

theorem doomed_promoteAuthenticationChannel : (promoteAuthenticationChannel p s).Doomed := by
  refine doomed_setupAuthorizedPeer ?_
  split
  · exact h.imp rfl id .intro fun o ho => { ho with
      peer := ho.peer.imp_right fun hp => ⟨by simp, hp.2⟩ }
  next channel hchannel =>
    refine h.imp rfl id .intro fun o ho => ⟨mem_filter.mpr ⟨ho.registered, ?_⟩, ho.below,
      ho.channel, ho.peer.imp_right fun hp => ⟨by simp [unregister], hp.2⟩⟩
    have hne : some channel ≠ some o.owner := hchannel ▸ ho.channel
    simpa using fun heq => hne (congrArg some heq.symm)

theorem doomed_onConnectionClosed (hopen : s.closed = false) :
    (onConnectionClosed { s with closed := true }).Doomed := by
  have hnot : s.closed ≠ true := by simp [hopen]
  unfold onConnectionClosed
  dsimp only
  split
  · exact h.imp rfl id (absurd · hnot) fun o ho =>
      { ho with peer := .inl rfl }
  next peer hpeer =>
    split
    · exact ⟨h.1, .inl rfl⟩
    · refine h.imp rfl id (absurd · hnot) fun o ho =>
        ⟨mem_filter.mpr ⟨ho.registered, ?_⟩, ho.below, ho.channel, .inl rfl⟩
      have hne := (ho.peer.resolve_left hnot).1
      rw [hpeer] at hne
      simpa using fun heq => hne (congrArg some heq.symm)

theorem doomed_changeTags : (changeTags f g s).Doomed := by
  unfold changeTags
  split
  · exact h
  · exact h.imp rfl id (fun hclosed _ => ⟨hclosed, by simp⟩) fun o ho => { ho with }

theorem Doomed.authenticating (n : Nat) : Doomed { s with authenticating := n } :=
  h.imp rfl id .intro fun _ ho => { ho with }

theorem Doomed.resume {setups : List (PeerId × Stage)}
    (hsetups : ∀ x ∈ setups, ∃ stage, (x.1, stage) ∈ s.setups) : Doomed { s with setups } := by
  refine h.imp rfl id .intro fun o ho => { ho with
    peer := ho.peer.imp_right fun hp => ⟨hp.1, fun stage hin => ?_⟩ }
  obtain ⟨stage', hold⟩ := hsetups _ hin
  exact hp.2 stage' hold

theorem Doomed.publish {peer : PeerId} (hin : (peer, stage) ∈ s.setups) :
    Doomed { s with peer := some peer } := by
  refine h.imp rfl id .intro fun o ho => { ho with
    peer := ho.peer.imp_right fun hp => ⟨?_, hp.2⟩ }
  rintro ⟨⟩
  exact hp.2 stage hin

end

theorem setups_erase {peer : PeerId} :
    ∀ x ∈ s.setups.erase (peer, stage), ∃ stage, (x.1, stage) ∈ s.setups :=
  fun x hx => ⟨x.2, mem_of_mem_erase hx⟩

theorem setups_resumed {peer : PeerId} {stage next : Stage} (hin : (peer, stage) ∈ s.setups) :
    ∀ x ∈ (peer, next) :: s.setups.erase (peer, stage), ∃ stage, (x.1, stage) ∈ s.setups := by
  intro x hx
  rcases mem_cons.mp hx with rfl | hx
  · exact ⟨stage, hin⟩
  · exact setups_erase x hx

theorem doomed_run (h : s.Doomed) (hstep : run p s e = some t) : t.Doomed := by
  cases e with
  | connected | connectFailed => simp [run, h.1] at hstep
  | authenticate =>
    obtain ⟨-, ⟨⟩⟩ := ite_none_right_eq_some.mp hstep
    exact h.authenticating _
  | authenticated =>
    obtain ⟨-, ⟨⟩⟩ := ite_none_left_eq_some.mp hstep
    exact doomed_promoteAuthenticationChannel (h.authenticating _)
  | authenticationFailed =>
    obtain ⟨-, ⟨⟩⟩ := ite_none_left_eq_some.mp hstep
    exact h.authenticating _
  | proxy peer =>
    obtain ⟨hin, ⟨⟩⟩ := ite_none_right_eq_some.mp hstep
    exact h.resume (setups_resumed hin)
  | proxyFailed peer =>
    obtain ⟨-, ⟨⟩⟩ := ite_none_right_eq_some.mp hstep
    exact h.resume setups_erase
  | nodeReturned peer =>
    obtain ⟨hin, ⟨⟩⟩ := ite_none_right_eq_some.mp hstep
    unfold checkEntry
    split
    · exact h.resume setups_erase
    · exact h.resume (setups_resumed hin)
  | peerReturned peer =>
    obtain ⟨hin, ⟨⟩⟩ := ite_none_right_eq_some.mp hstep
    exact (h.publish hin).resume setups_erase
  | closed =>
    obtain ⟨hopen, ⟨⟩⟩ := ite_none_left_eq_some.mp hstep
    rw [not_or] at hopen
    exact doomed_onConnectionClosed h (by simpa using hopen.2)
  | tag tag =>
    cases hstep
    exact doomed_changeTags h
  | untag tag =>
    cases hstep
    unfold doUntag
    split
    · exact h
    · exact doomed_changeTags h
  | addAcl acl =>
    cases hstep
    exact doomed_changeTags h

theorem doomed_promote_live {owner : PeerId} (h : s.Live owner) (hasked : s.channel ≠ none)
    (hlate : s.peer ≠ s.channel) : (promoteAuthenticationChannel p s).Doomed := by
  obtain ⟨channel, hchannel⟩ := ne_none_iff_exists'.mp hasked
  have hne : owner ≠ channel := by
    rintro rfl
    rcases h.published with ⟨hpeer, -⟩ | ⟨-, hnot, -⟩
    · exact hlate (hpeer.trans hchannel.symm)
    · exact hnot hchannel
  obtain ⟨objects, crashed, setups, hsetup, -, -, -, htaken, -⟩ :=
    setupAuthorizedPeer_spec p (unregister channel { s with peer := none })
  rw [promoteAuthenticationChannel_eq hchannel, hsetup]
  refine ⟨h.incoming, .inl (htaken ⟨_, mem_filter.mpr ⟨h.service, ?_⟩, rfl⟩)⟩
  simpa using hne

/-- A promotion after the connection was closed leaves the objects of a peer. -/
theorem doomed_promote_gone (h : s.Gone) : (promoteAuthenticationChannel p s).Doomed := by
  have hempty : s.objects = [] := h.clean.2.2.2.1
  have hleft : ∀ u : Lifecycle, u.objects = [] → u.incoming = false → u.closed = true →
      (∀ channel, u.channel = some channel → channel < u.nextPeer) →
      (setupAuthorizedPeer p u).Doomed := by
    intro u hobjects hincoming hclosed hbelow
    obtain ⟨objects, crashed, setups, hsetup, -, -, -, -, hnew⟩ := setupAuthorizedPeer_spec p u
    rw [hsetup]
    refine ⟨hincoming, .inr (.inr ⟨_, hnew (by simp [hobjects]), Nat.lt_succ_self _, ?_,
      .inl hclosed⟩)⟩
    intro hchannel
    exact (hbelow _ hchannel).ne rfl
  unfold promoteAuthenticationChannel
  dsimp only
  split
  · exact hleft _ hempty h.incoming h.closed h.channel
  · exact hleft _ (by simp [unregister, hempty]) h.incoming h.closed h.channel

theorem doomed_of_late (h : s.Healthy) (hlate : ¬ s.InTime e) (hstep : run p s e = some t) :
    t.Doomed := by
  cases e with
  | closed =>
    simp only [InTime, ne_eq, not_not] at hlate
    obtain ⟨hopen, ⟨⟩⟩ := ite_none_left_eq_some.mp hstep
    cases h with
    | idle h => exact absurd (.inl h.connected) hopen
    | live owner h =>
      obtain ⟨entry, hentry, -⟩ := h.entry
      simp only [onConnectionClosed, hlate]
      exact ⟨h.incoming, .inr (.inl ⟨rfl, by simp [hentry]⟩)⟩
    | gone h => exact absurd (.inr h.closed) hopen
  | authenticated =>
    obtain ⟨hasked, ⟨⟩⟩ := ite_none_left_eq_some.mp hstep
    cases h with
    | idle h => exact absurd h.authenticating hasked
    | live owner h =>
      have hpeer : s.peer ≠ s.channel := fun hsame => hlate ⟨h.closed, hsame⟩
      exact doomed_promote_live (s := { s with authenticating := s.authenticating - 1 })
        { h with asked := fun _ => h.asked hasked } (h.asked hasked) hpeer
    | gone h =>
      exact doomed_promote_gone (s := { s with authenticating := s.authenticating - 1 })
        { h with }
  | proxyFailed peer =>
    obtain ⟨hin, ⟨⟩⟩ := ite_none_right_eq_some.mp hstep
    cases h with
    | idle h => simp [h.setups] at hin
    | live owner h =>
      obtain ⟨rfl, hone, hpeer, hchannel⟩ := h.setup hin
      exact ⟨h.incoming, .inr (.inr ⟨_, h.service, h.below, hchannel,
        .inr ⟨by simp [hpeer], by simp [hone]⟩⟩)⟩
    | gone h => simp [h.setups] at hin
  | _ => exact absurd trivial hlate

open Machine

theorem healthy_init : ({} : Lifecycle).Healthy :=
  .idle ⟨rfl, rfl, rfl, rfl, rfl, rfl, rfl, rfl, rfl, rfl⟩

theorem run_of_step (h : step p s e = some t) : s.crashed = false ∧ run p s e = some t := by
  unfold step at h
  split at h
  next => cases h
  next hcrashed => exact ⟨by simpa using hcrashed, h⟩

/-- Nothing is left of a connection that was closed exactly when everything happened in time,
whether its handlers have finished or not. -/
theorem lifecycle_iff (p : EndpointParameters) (events : List Event) (s : Lifecycle)
    (hrun : exec (step p) {} events = some s) (hclosed : s.closed = true) :
    s.crashed = false ∧ s.Clean ↔ EachStep (step p) InTime {} events := by
  have hcases := eachStep_or_of_exec (I := fun s => s.crashed = false ∧ s.Healthy) (D := Doomed)
    (fun s e t h hok hstep => healthy_run h hok (run_of_step hstep).2)
    (fun s e t h hlate hstep => doomed_of_late h.2 hlate (run_of_step hstep).2)
    (fun s e t h hstep => doomed_run h (run_of_step hstep).2) ⟨rfl, healthy_init⟩ hrun
  rcases hcases with ⟨hall, hcrashed, hhealthy⟩ | ⟨hnot, -, hdoomed⟩
  · refine iff_of_true ⟨hcrashed, ?_⟩ hall
    cases hhealthy with
    | idle h | live owner h => cases h.closed.symm.trans hclosed
    | gone h => exact h.clean
  · refine iff_of_false ?_ hnot
    rintro ⟨hcrashed, hclean⟩
    rcases hdoomed with hcrash | ⟨-, hentry⟩ | ⟨o, ho⟩
    · cases hcrashed.symm.trans hcrash
    · exact hentry hclean.1
    · have hnone := ho.registered
      rw [hclean.2.2.2.1] at hnone
      cases hnone

theorem lifecycle_iff_controller :
    ∃ s, exec (step ⟨false, false⟩) {} [.connected, .peerReturned 0, .closed] = some s ∧
      s.closed = true ∧ (s.crashed = false ∧ s.Clean ↔
        EachStep (step ⟨false, false⟩) InTime {} [.connected, .peerReturned 0, .closed]) :=
  ⟨_, rfl, rfl, lifecycle_iff _ _ _ rfl rfl⟩

/-- The connection of a node is closed while its set-up waits for a proxy. -/
theorem closed_during_setup :
    ∃ s, exec (step ⟨true, false⟩) {}
        [.connected, .closed, .proxy 0, .nodeReturned 0, .peerReturned 0] = some s ∧
      s.closed = true ∧ s.Finished ∧ s.crashed = false ∧
      s.entry = some { cluster := true } ∧ s.peer = some 0 ∧
      s.objects = [⟨.authenticationService, 0⟩, ⟨.portalSession, 0⟩] ∧ s.connected = 1 ∧
      s.disconnected = 0 :=
  ⟨_, rfl, rfl, ⟨rfl, rfl, rfl⟩, rfl, rfl, rfl, rfl, rfl, rfl⟩

/-- The tables of the whole portal have for the connection what its life has. -/
structure Views (d : Directory) (id : ConnectionId) (s : Lifecycle) : Prop where
  entry : d.connections id = s.entry
  tags : ∀ tag, (tag, id) ∈ d.tags ↔ tag ∈ s.tags

/-- What is done to the tags and the entry of a connection is the same here and there. -/
theorem Views.changes {d : Directory} {id : ConnectionId} (h : Views d id s) (tag : Tag)
    (acl : List Tag) :
    Views (d.doTag id tag) id (doTag tag s) ∧ Views (d.doUntag id tag) id (doUntag tag s) ∧
      Views (d.addAcl id acl) id (addAcl acl s) ∧
      (s.peer ≠ none → Views (d.closeConnection id) id (onConnectionClosed s)) := by
  obtain ⟨hentry, htags⟩ := h
  refine ⟨?_, ?_, ?_, fun hpeer => ?_⟩
  · cases hs : s.entry <;> constructor <;>
      simp_all [doTag, changeTags, Directory.doTag, Directory.setTags]
  · rcases hs : s.entry with _ | ⟨cluster, _ | tags⟩ <;> constructor <;>
      simp_all [doUntag, changeTags, Directory.doUntag, Directory.setTags]
  · cases hs : s.entry <;> constructor <;>
      simp_all [addAcl, changeTags, Directory.addAcl, Directory.setTags]
  · obtain ⟨peer, hpeer⟩ := ne_none_iff_exists'.mp hpeer
    cases hs : s.entry <;> constructor <;>
      simp_all [onConnectionClosed, unregister, Directory.closeConnection]

end

end Lifecycle

end FridaCore.Portal
