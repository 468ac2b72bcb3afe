import FridaCore.Portal.Service
import FridaCore.Support.Lists

/-!
# Spawn gating keeps no node waiting for nobody

A node that was told to stay suspended waits for controllers that all gate spawns, and is sent
`resume` once, when the last of them withdraws. A controller withdraws from one node when it
resumes it, and from all when it disables gating or is closed.
-/

namespace FridaCore.Portal

open Function Finset Gating

namespace Gating

structure Gated (gaters : Finset ControllerId) (g : Gating) : Prop where
  pids : (g.pendingSpawn.map PendingSpawn.pid).Nodup
  registered : ∀ spawn ∈ g.pendingSpawn, g.nodeAt spawn.pid = some spawn.node
  approvers : ∀ spawn ∈ g.pendingSpawn,
    spawn.pendingApprovers.Nonempty ∧ spawn.pendingApprovers ⊆ gaters
  application : ∀ pid node, g.nodeAt pid = some node →
    ∃ app, g.application node = some app ∧ app.pid = pid
  asserted : g.assertionFailed = false
  waiting : ∀ spawn ∈ g.pendingSpawn, spawn.node ∈ g.held ∧ spawn.node ∉ g.resumed
  joined : ∀ node ∈ g.held, g.application node ≠ none
  told : ∀ node ∈ g.resumed, node ∈ g.held
  once : g.resumed.Nodup
  kept : ∀ node ∈ g.held, node ∉ g.resumed → ∀ pid, g.nodeAt pid = some node →
    ∃ spawn ∈ g.pendingSpawn, spawn.node = node

section
variable {gaters : Finset ControllerId} {g : Gating}

theorem gated_init : Gated ∅ {} := by
  constructor <;> simp [nodeAt]

section
variable (h : Gated gaters g)
include h

theorem Gated.of_approvers
    (happrovers : ∀ spawn ∈ g.pendingSpawn,
      spawn.pendingApprovers.Nonempty ∧ spawn.pendingApprovers ⊆ gaters') :
    Gated gaters' g :=
  { h with approvers := happrovers }

section
variable (hs : spawn ∈ g.pendingSpawn)
include hs

theorem Gated.eq_of_pid (ho : other ∈ g.pendingSpawn) (hpid : spawn.pid = other.pid) :
    spawn = other :=
  List.inj_on_of_nodup_map h.pids hs ho hpid

theorem Gated.eq_of_node (ho : other ∈ g.pendingSpawn) (hnode : spawn.node = other.node) :
    spawn = other := by
  obtain ⟨app, happ, hpid⟩ := h.application _ _ (h.registered spawn hs)
  obtain ⟨app', happ', hpid'⟩ := h.application _ _ (h.registered other ho)
  rw [hnode, happ'] at happ
  cases happ
  exact h.eq_of_pid hs ho (hpid.symm.trans hpid')

theorem Gated.spawnAt_eq : g.spawnAt spawn.pid = some spawn :=
  find?_eq_of_unique hs (by simp) fun _ ho hpid => h.eq_of_pid ho hs (of_decide_eq_true hpid)

end

end

theorem mem_unsetSpawn :
    spawn ∈ unsetSpawn pid spawns ↔ spawn ∈ spawns ∧ spawn.pid ≠ pid := by
  simp [unsetSpawn]

def adjust (pids : List UInt32) (requester : ControllerId) (spawn : PendingSpawn) : PendingSpawn :=
  if spawn.pid ∈ pids then
    { spawn with pendingApprovers := spawn.pendingApprovers.erase requester }
  else spawn

section
variable {pids : List UInt32} {requester : ControllerId} {spawn : PendingSpawn}

theorem adjust_pid : (adjust pids requester spawn).pid = spawn.pid := by
  unfold adjust
  split <;> rfl

theorem adjust_node : (adjust pids requester spawn).node = spawn.node := by
  unfold adjust
  split <;> rfl

theorem adjust_of_mem (h : spawn.pid ∈ pids) : (adjust pids requester spawn).pendingApprovers =
    spawn.pendingApprovers.erase requester := by
  rw [adjust, if_pos h]

theorem adjust_of_not_mem (h : spawn.pid ∉ pids) : adjust pids requester spawn = spawn :=
  if_neg h

theorem adjust_subset :
    (adjust pids requester spawn).pendingApprovers ⊆ spawn.pendingApprovers := by
  unfold adjust
  split
  · exact erase_subset _ _
  · exact subset_rfl

end

theorem resume_of_last (h : Gated gaters g)
    (hs : spawn ∈ g.pendingSpawn) (hlast : spawn.pendingApprovers.erase requester = ∅) :
    g.resume spawn.pid requester =
      { g with
        pendingSpawn := unsetSpawn spawn.pid g.pendingSpawn
        resumed := g.resumed ++ [spawn.node] } := by
  simp only [resume, h.spawnAt_eq hs, if_pos hlast, h.registered spawn hs]

theorem resume_of_more (h : Gated gaters g)
    (hs : spawn ∈ g.pendingSpawn) (hmore : spawn.pendingApprovers.erase requester ≠ ∅) :
    g.resume spawn.pid requester =
      { g with
        pendingSpawn := g.pendingSpawn.map (adjust [spawn.pid] requester) } := by
  simp only [resume, h.spawnAt_eq hs, if_neg hmore]
  congr 1
  refine List.map_congr_left fun other ho => ?_
  by_cases hpid : other.pid = spawn.pid
  · rw [if_pos hpid, adjust, if_pos (List.mem_singleton.mpr hpid), h.eq_of_pid ho hs hpid]
  · rw [if_neg hpid, adjust, if_neg (List.mem_singleton.not.mpr hpid)]

theorem resume_of_none (requester : ControllerId)
    (h : ∀ spawn ∈ g.pendingSpawn, spawn.pid ≠ pid) : g.resume pid requester = g := by
  have hnone : g.spawnAt pid = none :=
    List.find?_eq_none.mpr fun spawn hs => by simpa using h spawn hs
  simp only [resume, hnone]

/-- What is left of the spawns, and who is sent `resume`, when a controller withdraws from the
spawns with some pids. -/
structure Withdrawn (pids : List UInt32) (requester : ControllerId) (g after : Gating) :
    Prop where
  same : after.application = g.application ∧ after.nodeByPid = g.nodeByPid ∧
    after.spawnGaters = g.spawnGaters ∧ after.held = g.held
  spawns : ∀ spawn, spawn ∈ after.pendingSpawn ↔ ∃ old ∈ g.pendingSpawn,
    spawn = adjust pids requester old ∧ spawn.pendingApprovers.Nonempty
  resumed : ∀ node, node ∈ after.resumed ↔ node ∈ g.resumed ∨
    ∃ spawn ∈ g.pendingSpawn, spawn.pid ∈ pids ∧ spawn.node = node ∧
      spawn.pendingApprovers.erase requester = ∅

def NoNewApprovers (g after : Gating) : Prop :=
  ∀ spawn ∈ after.pendingSpawn, ∃ old ∈ g.pendingSpawn,
    old.node = spawn.node ∧ spawn.pendingApprovers ⊆ old.pendingApprovers

theorem Withdrawn.noNewApprovers
    (h : Withdrawn pids requester g after) : NoNewApprovers g after := by
  intro spawn hs
  obtain ⟨old, ho, rfl, -⟩ := (h.spawns spawn).mp hs
  exact ⟨old, ho, adjust_node.symm, adjust_subset⟩

section
variable (h : Gated gaters g)
include h

theorem Gated.map {gaters' spawnGaters : Finset ControllerId}
    (hpid : ∀ spawn, (f spawn).pid = spawn.pid) (hnode : ∀ spawn, (f spawn).node = spawn.node)
    (happrovers : ∀ spawn ∈ g.pendingSpawn,
      (f spawn).pendingApprovers.Nonempty ∧ (f spawn).pendingApprovers ⊆ gaters') :
    Gated gaters' { g with spawnGaters, pendingSpawn := g.pendingSpawn.map f } where
  __ := h
  pids := by
    have hsame : PendingSpawn.pid ∘ f = PendingSpawn.pid := funext hpid
    rw [List.map_map, hsame]
    exact h.pids
  registered := by
    refine List.forall_mem_map.mpr fun spawn hs => ?_
    rw [hpid, hnode]
    exact h.registered spawn hs
  approvers := List.forall_mem_map.mpr happrovers
  waiting := by
    refine List.forall_mem_map.mpr fun spawn hs => ?_
    rw [hnode]
    exact h.waiting spawn hs
  kept node hheld hresumed pid hpid' := by
    obtain ⟨spawn, hs, hsame⟩ := h.kept node hheld hresumed pid hpid'
    exact ⟨f spawn, List.mem_map_of_mem hs, (hnode spawn).trans hsame⟩

theorem Gated.resume_last (hs : spawn ∈ g.pendingSpawn) :
    Gated gaters { g with
      pendingSpawn := unsetSpawn spawn.pid g.pendingSpawn
      resumed := g.resumed ++ [spawn.node] } where
  __ := h
  pids := h.pids.sublist (List.filter_sublist.map _)
  registered other ho := h.registered other (mem_unsetSpawn.mp ho).1
  approvers other ho := h.approvers other (mem_unsetSpawn.mp ho).1
  waiting other ho := by
    obtain ⟨hmem, hne⟩ := mem_unsetSpawn.mp ho
    obtain ⟨hheld, hnot⟩ := h.waiting other hmem
    refine ⟨hheld, fun hin => ?_⟩
    rcases List.mem_append.mp hin with hin | hin
    · exact hnot hin
    · exact hne (by rw [h.eq_of_node hmem hs (List.mem_singleton.mp hin)])
  told node hin := by
    rcases List.mem_append.mp hin with hin | hin
    · exact h.told node hin
    · rw [List.mem_singleton.mp hin]
      exact (h.waiting spawn hs).1
  once := by
    refine List.nodup_append.mpr ⟨h.once, List.nodup_singleton _, fun a ha b hb => ?_⟩
    rw [List.mem_singleton.mp hb]
    rintro rfl
    exact (h.waiting spawn hs).2 ha
  kept node hheld hnot pid hpid := by
    rw [List.mem_append, List.mem_singleton, not_or] at hnot
    obtain ⟨other, ho, hsame⟩ := h.kept node hheld hnot.1 pid hpid
    refine ⟨other, mem_unsetSpawn.mpr ⟨ho, fun hpid' => hnot.2 ?_⟩, hsame⟩
    rw [← hsame, h.eq_of_pid ho hs hpid']

theorem withdrawn_of_last (hs : spawn ∈ g.pendingSpawn)
    (hlast : spawn.pendingApprovers.erase requester = ∅) :
    Withdrawn [spawn.pid] requester g { g with
      pendingSpawn := unsetSpawn spawn.pid g.pendingSpawn
      resumed := g.resumed ++ [spawn.node] } where
  same := ⟨rfl, rfl, rfl, rfl⟩
  spawns other := by
    rw [mem_unsetSpawn]
    constructor
    · rintro ⟨ho, hne⟩
      exact ⟨other, ho, (adjust_of_not_mem (List.mem_singleton.not.mpr hne)).symm,
        (h.approvers other ho).1⟩
    · rintro ⟨old, ho, rfl, hsome⟩
      have hne : old.pid ≠ spawn.pid := by
        intro hpid
        rw [adjust_of_mem (List.mem_singleton.mpr hpid), h.eq_of_pid ho hs hpid, hlast] at hsome
        exact not_nonempty_empty hsome
      rw [adjust_of_not_mem (List.mem_singleton.not.mpr hne)]
      exact ⟨ho, hne⟩
  resumed node := by
    rw [List.mem_append, List.mem_singleton]
    refine or_congr_right ⟨?_, ?_⟩
    · rintro rfl
      exact ⟨spawn, hs, List.mem_singleton_self _, rfl, hlast⟩
    · rintro ⟨other, ho, hpid, rfl, -⟩
      rw [h.eq_of_pid ho hs (List.mem_singleton.mp hpid)]

theorem withdrawn_of_more (requester : ControllerId)
    (hmore : ∀ spawn ∈ g.pendingSpawn, spawn.pid = pid → spawn.pendingApprovers.erase requester ≠ ∅) :
    Withdrawn [pid] requester g
      { g with pendingSpawn := g.pendingSpawn.map (adjust [pid] requester) } where
  same := ⟨rfl, rfl, rfl, rfl⟩
  spawns other := by
    rw [List.mem_map]
    constructor
    · rintro ⟨old, ho, rfl⟩
      refine ⟨old, ho, rfl, ?_⟩
      by_cases hpid : old.pid = pid
      · rw [adjust_of_mem (List.mem_singleton.mpr hpid)]
        exact nonempty_iff_ne_empty.mpr (hmore old ho hpid)
      · rw [adjust_of_not_mem (List.mem_singleton.not.mpr hpid)]
        exact (h.approvers old ho).1
    · rintro ⟨old, ho, rfl, -⟩
      exact ⟨old, ho, rfl⟩
  resumed node := by
    refine ⟨.inl, ?_⟩
    rintro (hin | ⟨spawn, hs, hpid, -, hlast⟩)
    · exact hin
    · exact absurd hlast (hmore spawn hs (List.mem_singleton.mp hpid))

theorem resume_cases (pid : UInt32) (requester : ControllerId) :
    Gated gaters (g.resume pid requester) ∧
      Withdrawn [pid] requester g (g.resume pid requester) := by
  by_cases hex : ∃ spawn ∈ g.pendingSpawn, spawn.pid = pid
  · obtain ⟨spawn, hs, rfl⟩ := hex
    by_cases hlast : spawn.pendingApprovers.erase requester = ∅
    · rw [resume_of_last h hs hlast]
      exact ⟨h.resume_last hs, withdrawn_of_last h hs hlast⟩
    · have hmore : ∀ other ∈ g.pendingSpawn, other.pid = spawn.pid →
          other.pendingApprovers.erase requester ≠ ∅ := by
        intro other ho hpid
        rwa [h.eq_of_pid ho hs hpid]
      have hwithdrawn := withdrawn_of_more h requester hmore
      rw [resume_of_more h hs hlast]
      refine ⟨h.map (fun _ => adjust_pid) (fun _ => adjust_node) fun other ho => ⟨?_, ?_⟩,
        hwithdrawn⟩
      · obtain ⟨_, _, _, hsome⟩ := (hwithdrawn.spawns _).mp (List.mem_map_of_mem ho)
        exact hsome
      · exact adjust_subset.trans (h.approvers other ho).2
  · have hnone : ∀ spawn ∈ g.pendingSpawn, spawn.pid ≠ pid := fun spawn hs hpid =>
      hex ⟨spawn, hs, hpid⟩
    have hwithdrawn := withdrawn_of_more h requester fun spawn hs hpid =>
      absurd hpid (hnone spawn hs)
    have hsame : g.pendingSpawn.map (adjust [pid] requester) = g.pendingSpawn := by
      refine (List.map_congr_left fun spawn hs => ?_).trans (List.map_id' _)
      exact adjust_of_not_mem (List.mem_singleton.not.mpr (hnone spawn hs))
    rw [hsame] at hwithdrawn
    rw [resume_of_none requester hnone]
    exact ⟨h, hwithdrawn⟩

end

theorem adjust_adjust (pids pids' : List UInt32) (requester : ControllerId)
    (spawn : PendingSpawn) :
    adjust pids' requester (adjust pids requester spawn) =
      adjust (pids ++ pids') requester spawn := by
  by_cases hp : spawn.pid ∈ pids <;> by_cases hp' : spawn.pid ∈ pids' <;> simp [adjust, hp, hp']

theorem Withdrawn.trans (h : Gated gaters g) (hfirst : Withdrawn pids requester g mid)
    (hsecond : Withdrawn pids' requester mid after) :
    Withdrawn (pids ++ pids') requester g after where
  same := by
    obtain ⟨happ, hpid, hgaters, hheld⟩ := hfirst.same
    obtain ⟨happ', hpid', hgaters', hheld'⟩ := hsecond.same
    exact ⟨happ'.trans happ, hpid'.trans hpid, hgaters'.trans hgaters, hheld'.trans hheld⟩
  spawns spawn := by
    rw [hsecond.spawns]
    constructor
    · rintro ⟨old', ho', rfl, hsome⟩
      obtain ⟨old, ho, rfl, -⟩ := (hfirst.spawns old').mp ho'
      exact ⟨old, ho, adjust_adjust .., hsome⟩
    · rintro ⟨old, ho, rfl, hsome⟩
      rw [← adjust_adjust] at hsome ⊢
      exact ⟨_, (hfirst.spawns _).mpr ⟨old, ho, rfl, hsome.mono adjust_subset⟩, rfl, hsome⟩
  resumed node := by
    rw [hsecond.resumed, hfirst.resumed, or_assoc]
    refine or_congr_right ⟨?_, ?_⟩
    · rintro (⟨spawn, hs, hpid, hnode, hlast⟩ | ⟨spawn', hs', hpid', rfl, hlast⟩)
      · exact ⟨spawn, hs, List.mem_append_left _ hpid, hnode, hlast⟩
      · obtain ⟨spawn, hs, rfl, hsome⟩ := (hfirst.spawns spawn').mp hs'
        rw [adjust_pid] at hpid'
        refine ⟨spawn, hs, List.mem_append_right _ hpid', adjust_node.symm, ?_⟩
        by_cases hpid : spawn.pid ∈ pids
        · rw [adjust_of_mem hpid, erase_idem] at hlast
          exact hlast
        · rwa [adjust_of_not_mem hpid] at hlast
    · rintro ⟨spawn, hs, hpid, hnode, hlast⟩
      by_cases hfirst' : spawn.pid ∈ pids
      · exact .inl ⟨spawn, hs, hfirst', hnode, hlast⟩
      · -- the first round has left it as it is
        have hkept : spawn ∈ mid.pendingSpawn :=
          (hfirst.spawns spawn).mpr
            ⟨spawn, hs, (adjust_of_not_mem hfirst').symm, (h.approvers spawn hs).1⟩
        have hpid' := (List.mem_append.mp hpid).resolve_left hfirst'
        exact .inr ⟨spawn, hkept, hpid', hnode, hlast⟩

theorem resumeAll_cases (pids : List UInt32) (requester : ControllerId) (h : Gated gaters g) :
    Gated gaters (pids.foldl (fun g pid => g.resume pid requester) g) ∧
      Withdrawn pids requester g (pids.foldl (fun g pid => g.resume pid requester) g) := by
  induction pids generalizing g with
  | nil =>
    refine ⟨h, ⟨rfl, rfl, rfl, rfl⟩, fun spawn => ⟨fun hs => ?_, ?_⟩, fun node => ⟨.inl, ?_⟩⟩
    · exact ⟨spawn, hs, rfl, (h.approvers spawn hs).1⟩
    · rintro ⟨old, ho, rfl, -⟩
      exact ho
    · rintro (hin | ⟨_, _, hpid, _⟩)
      · exact hin
      · cases hpid
  | cons pid pids ih =>
    obtain ⟨hgated, hone⟩ := resume_cases h pid requester
    obtain ⟨hall, hrest⟩ := ih hgated
    exact ⟨hall, hone.trans h hrest⟩

theorem disableSpawnGating_cases (requester : ControllerId) (h : Gated g.spawnGaters g) :
    Gated (g.disableSpawnGating requester).spawnGaters (g.disableSpawnGating requester) ∧
      NoNewApprovers g (g.disableSpawnGating requester) ∧
      ∀ node, node ∈ (g.disableSpawnGating requester).resumed ↔ node ∈ g.resumed ∨
        ∃ spawn ∈ g.pendingSpawn, spawn.node = node ∧
          spawn.pendingApprovers.erase requester = ∅ := by
  unfold disableSpawnGating
  split
  next hmem =>
    have hstart : Gated g.spawnGaters { g with spawnGaters := g.spawnGaters.erase requester } :=
      { h with }
    obtain ⟨hgated, hall⟩ :=
      resumeAll_cases (g.pendingSpawn.map PendingSpawn.pid) requester hstart
    refine ⟨hgated.of_approvers fun spawn hs => ⟨(hgated.approvers spawn hs).1, ?_⟩,
      hall.noNewApprovers, fun node => ?_⟩
    · obtain ⟨old, ho, rfl, -⟩ := (hall.spawns spawn).mp hs
      rw [hall.same.2.2.1, adjust_of_mem (List.mem_map_of_mem ho)]
      exact erase_subset_erase _ (h.approvers old ho).2
    · rw [hall.resumed]
      refine or_congr_right ⟨?_, ?_⟩
      · rintro ⟨spawn, hs, -, hnode, hlast⟩
        exact ⟨spawn, hs, hnode, hlast⟩
      · rintro ⟨spawn, hs, hnode, hlast⟩
        exact ⟨spawn, hs, List.mem_map_of_mem hs, hnode, hlast⟩
  next hnot =>
    refine ⟨h, fun spawn hs => ⟨spawn, hs, rfl, subset_rfl⟩, fun node => ⟨.inl, ?_⟩⟩
    rintro (hin | ⟨spawn, hs, -, hlast⟩)
    · exact hin
    · obtain ⟨⟨approver, happrover⟩, hsubset⟩ := h.approvers spawn hs
      have hself : approver = requester := by
        by_contra hne
        have := mem_erase.mpr ⟨hne, happrover⟩
        rw [hlast] at this
        exact notMem_empty _ this
      exact absurd (hself ▸ hsubset happrover) hnot

theorem gated_enableSpawnGating (access : ConnectionId → ControllerId → Bool)
    (requester : ControllerId) (h : Gated g.spawnGaters g) :
    Gated (insert requester g.spawnGaters) (g.enableSpawnGating access requester) := by
  refine h.map (fun spawn => ?_) (fun spawn => ?_) fun spawn hs => ?_
  · split <;> rfl
  · split <;> rfl
  · obtain ⟨hsome, hsubset⟩ := h.approvers spawn hs
    split
    · exact ⟨insert_nonempty _ _, insert_subset_insert _ hsubset⟩
    · exact ⟨hsome, hsubset.trans (subset_insert _ _)⟩

theorem freePid_not_mem (h : freePid taken fuel start = some pid) : pid ∉ taken := by
  induction fuel generalizing start with
  | zero => cases h
  | succ fuel ih =>
    unfold freePid at h
    split at h
    · exact ih h
    · cases h
      assumption

theorem nodeAt_eq_none (h : pid ∉ g.nodeByPid.map Prod.fst) :
    g.nodeAt pid = none := by
  refine List.lookup_eq_none_iff.mpr fun p hp => ?_
  simp only [ne_eq, bne_iff_ne]
  rintro rfl
  exact h (List.mem_map_of_mem hp)

theorem Gated.joined_node (h : Gated gaters g) (app : Application)
    (identifiers : List (String × ConnectionId))
    (hnew : g.application node = none) (hfree : g.nodeAt app.pid = none) :
    Gated gaters { g with
      application := update g.application node (some app)
      nodeByPid := (app.pid, node) :: g.nodeByPid
      nodeByIdentifier := identifiers } := by
  have hlookup : ∀ pid, ((app.pid, node) :: g.nodeByPid).lookup pid =
      if pid = app.pid then some node else g.nodeAt pid :=
    fun pid => lookup_cons_ite
  have hother : ∀ n, g.application n ≠ none →
      update g.application node (some app) n = g.application n := by
    intro n hn
    refine update_of_ne ?_ _ _
    rintro rfl
    exact hn hnew
  refine { h with
    registered := fun spawn hs => ?_, application := fun pid n hn => ?_
    joined := fun n hn => ?_, kept := fun n hheld hresumed pid hn => ?_ }
  · have hold := h.registered spawn hs
    have hne : spawn.pid ≠ app.pid := by
      intro hp
      rw [hp, hfree] at hold
      cases hold
    exact (hlookup spawn.pid).trans ((if_neg hne).trans hold)
  · have hcases := (hlookup pid).symm.trans hn
    split at hcases
    next hp =>
      cases hcases
      exact ⟨app, update_self .., hp.symm⟩
    next =>
      obtain ⟨app', happ', hpid'⟩ := h.application pid n hcases
      exact ⟨app', (hother n (by simp [happ'])).trans happ', hpid'⟩
  · have hold := h.joined n hn
    exact fun hnone => hold ((hother n hold).symm.trans hnone)
  · have hcases := (hlookup pid).symm.trans hn
    split at hcases
    next =>
      cases hcases
      exact absurd hnew (h.joined node hheld)
    next => exact h.kept n hheld hresumed pid hcases

theorem Gated.hold (h : Gated gaters g)
    (happrovers : spawn.pendingApprovers.Nonempty ∧ spawn.pendingApprovers ⊆ gaters)
    (hnode : g.nodeAt spawn.pid = some spawn.node) (hheld : spawn.node ∉ g.held) :
    Gated gaters { g with
      pendingSpawn := spawn :: unsetSpawn spawn.pid g.pendingSpawn
      held := g.held ++ [spawn.node] } := by
  obtain ⟨app, happ, -⟩ := h.application _ _ hnode
  refine ⟨?_, ?_, ?_, h.application, h.asserted, ?_, fun n hn => ?_, fun n hn => ?_, h.once,
    fun n hn hresumed pid hpid => ?_⟩
  · refine List.nodup_cons.mpr ⟨fun hin => ?_, h.pids.sublist (List.filter_sublist.map _)⟩
    obtain ⟨other, ho, hpid⟩ := List.mem_map.mp hin
    exact (mem_unsetSpawn.mp ho).2 hpid
  · refine List.forall_mem_cons.mpr ⟨hnode, fun other ho => ?_⟩
    exact h.registered other (mem_unsetSpawn.mp ho).1
  · refine List.forall_mem_cons.mpr ⟨happrovers, fun other ho => ?_⟩
    exact h.approvers other (mem_unsetSpawn.mp ho).1
  · refine List.forall_mem_cons.mpr ⟨⟨?_, fun hin => hheld (h.told _ hin)⟩, fun other ho => ?_⟩
    · exact List.mem_append_right _ (List.mem_singleton_self _)
    · obtain ⟨hin, hnot⟩ := h.waiting other (mem_unsetSpawn.mp ho).1
      exact ⟨List.mem_append_left _ hin, hnot⟩
  · rcases List.mem_append.mp hn with hn | hn
    · exact h.joined n hn
    · rw [List.mem_singleton.mp hn]
      exact happ ▸ Option.some_ne_none app
  · exact List.mem_append_left _ (h.told n hn)
  · rcases List.mem_append.mp hn with hn | hn
    · obtain ⟨other, ho, hsame⟩ := h.kept n hn hresumed pid hpid
      refine ⟨other, List.mem_cons_of_mem _ (mem_unsetSpawn.mpr ⟨ho, fun hp => ?_⟩), hsame⟩
      -- the pid is the one of the node that is held now
      have hreg := h.registered other ho
      rw [hp, hnode, hsame] at hreg
      cases hreg
      exact hheld hn
    · exact ⟨spawn, List.mem_cons_self, (List.mem_singleton.mp hn).symm⟩

theorem gated_register (h : Gated g.spawnGaters g)
    (hnew : g.application node = none) (hregister : g.register access node app state = some after) :
    Gated after.spawnGaters after ∧ after.resumed = g.resumed := by
  obtain ⟨pid, hpid, hrest⟩ := Option.bind_eq_some_iff.mp hregister
  obtain ⟨identifier, -, hafter⟩ := Option.bind_eq_some_iff.mp hrest
  have hfree := nodeAt_eq_none (freePid_not_mem hpid)
  have hjoined := h.joined_node ⟨identifier, pid⟩ ((identifier, node) :: g.nodeByIdentifier) hnew
    hfree
  dsimp only at hafter
  split at hafter
  next hsuspended =>
    cases hafter
    refine ⟨hjoined.hold ⟨nonempty_iff_ne_empty.mpr hsuspended.2,
      filter_subset _ _⟩ ?_ fun hin => h.joined node hin hnew, rfl⟩
    simp [nodeAt]
  next =>
    cases hafter
    exact ⟨hjoined, rfl⟩

theorem register_approvers (h : g.register access node app state = some after) :
    ∀ spawn ∈ after.pendingSpawn, spawn ∈ g.pendingSpawn ∨
      spawn.node = node ∧ ∀ controller ∈ spawn.pendingApprovers, access node controller = true := by
  obtain ⟨pid, -, hrest⟩ := Option.bind_eq_some_iff.mp h
  obtain ⟨identifier, -, hafter⟩ := Option.bind_eq_some_iff.mp hrest
  dsimp only at hafter
  split at hafter
  next =>
    cases hafter
    intro spawn hs
    rcases List.mem_cons.mp hs with rfl | hs
    · exact .inr ⟨rfl, fun controller hc => (mem_filter.mp hc).2⟩
    · exact .inl (mem_unsetSpawn.mp hs).1
  next =>
    cases hafter
    exact fun spawn hs => .inl hs

theorem unregister_noNewApprovers (node : ConnectionId) :
    NoNewApprovers g (g.unregister node) := by
  unfold unregister
  split
  · exact fun spawn hs => ⟨spawn, hs, rfl, subset_rfl⟩
  · exact fun spawn hs => ⟨spawn, (mem_unsetSpawn.mp hs).1, rfl, subset_rfl⟩

theorem gated_unregister (node : ConnectionId) (h : Gated g.spawnGaters g) :
    Gated (g.unregister node).spawnGaters (g.unregister node) ∧
      (g.unregister node).resumed = g.resumed := by
  unfold unregister
  cases happ : g.application node with
  | none => exact ⟨h, rfl⟩
  | some app =>
    have hlookup : ∀ pid, (g.nodeByPid.filter fun p => p.1 ≠ app.pid).lookup pid =
        if pid = app.pid then none else g.nodeAt pid := fun pid => lookup_filter_ne ..
    have hstill : ∀ pid n, (g.nodeByPid.filter fun p => p.1 ≠ app.pid).lookup pid = some n →
        pid ≠ app.pid ∧ g.nodeAt pid = some n := by
      intro pid n hn
      rw [hlookup] at hn
      split at hn
      · cases hn
      next hne => exact ⟨hne, hn⟩
    refine ⟨⟨h.pids.sublist (List.filter_sublist.map _), fun spawn hs => ?_, fun spawn hs => ?_,
      fun pid n hn => h.application pid n (hstill pid n hn).2, h.asserted, fun spawn hs => ?_,
      h.joined, h.told, h.once, fun n hheld hresumed pid hn => ?_⟩, rfl⟩
    · obtain ⟨hmem, hne⟩ := mem_unsetSpawn.mp hs
      exact (hlookup spawn.pid).trans ((if_neg hne).trans (h.registered spawn hmem))
    · exact h.approvers spawn (mem_unsetSpawn.mp hs).1
    · exact h.waiting spawn (mem_unsetSpawn.mp hs).1
    · obtain ⟨hne, hold⟩ := hstill pid n hn
      obtain ⟨spawn, hs, hsame⟩ := h.kept n hheld hresumed pid hold
      refine ⟨spawn, mem_unsetSpawn.mpr ⟨hs, fun hpid => hne ?_⟩, hsame⟩
      -- a node has one pid
      obtain ⟨app', happ', hpid'⟩ := h.application _ _ (h.registered spawn hs)
      obtain ⟨app'', happ'', hpid''⟩ := h.application _ _ hold
      rw [hsame, happ''] at happ'
      cases happ'
      rw [← hpid'', hpid', hpid]

end

end Gating

namespace Service

open Machine

/-- The controller withdraws from the spawn with this pid: it resumes it, disables gating or
is closed. -/
def Withdraws (s : Service) (controller : ControllerId) (pid : UInt32) : Event → Prop
  | .resume pid' requester => pid' = pid ∧ requester = controller
  | .disableSpawnGating requester => requester = controller
  | .disconnect id => ¬ s.HasNode id ∧ controller = .remote id
  | .destroyChannel => ∃ serial, s.channel = some serial ∧ controller = .inProcess serial
  | _ => False

/-- A node is sent `resume` by an event exactly if the last of its approvers withdraws. -/
def ResumesLast (s : Service) (e : Event) (t : Service) : Prop :=
  ∀ node, node ∈ t.gating.resumed ∧ node ∉ s.gating.resumed ↔
    ∃ spawn ∈ s.gating.pendingSpawn, spawn.node = node ∧
      ∃ controller, s.Withdraws controller spawn.pid e ∧
        spawn.pendingApprovers.erase controller = ∅

def Gates (s : Service) : Prop := s.gating.Gated s.gating.spawnGaters

def GatesOn (s : Service) (e : Event) (t : Service) : Prop := t.Gates ∧ s.ResumesLast e t

section
variable {s t : Service} {e : Event}

theorem resumesLast_of_same (hsame : t.gating.resumed = s.gating.resumed)
    (hnone : ∀ controller pid, ¬ s.Withdraws controller pid e) : s.ResumesLast e t := by
  intro node
  rw [hsame]
  exact ⟨fun ⟨hin, hnot⟩ => absurd hin hnot,
    fun ⟨_, _, _, controller, hw, _⟩ => absurd hw (hnone controller _)⟩

theorem gatesOn_of_same (h : s.Gates) (hsame : t.gating = s.gating)
    (hnone : ∀ controller pid, ¬ s.Withdraws controller pid e) : s.GatesOn e t := by
  refine ⟨?_, resumesLast_of_same (by rw [hsame]) hnone⟩
  rw [Gates, hsame]
  exact h

theorem gatesOn_of_disable (controller : ControllerId) (h : s.Gates)
    (hgating : t.gating = s.gating.disableSpawnGating controller)
    (hwithdraws : ∀ other pid, s.Withdraws other pid e ↔ other = controller) :
    s.GatesOn e t := by
  obtain ⟨hgated, -, hresumed⟩ := disableSpawnGating_cases controller h
  rw [GatesOn, Gates, hgating]
  refine ⟨hgated, fun node => ?_⟩
  rw [hgating, hresumed]
  constructor
  · rintro ⟨hin | ⟨spawn, hs, hnode, hlast⟩, hnot⟩
    · exact absurd hin hnot
    · exact ⟨spawn, hs, hnode, controller, (hwithdraws _ _).mpr rfl, hlast⟩
  · rintro ⟨spawn, hs, rfl, other, hw, hlast⟩
    cases (hwithdraws _ _).mp hw
    exact ⟨.inr ⟨spawn, hs, rfl, hlast⟩, (h.waiting spawn hs).2⟩

theorem gatesOn_resume (h : s.Gates) (hgating : t.gating = s.gating.resume pid requester) :
    s.GatesOn (.resume pid requester) t := by
  obtain ⟨hgated, hall⟩ := resume_cases h pid requester
  have hgaters : t.gating.spawnGaters = s.gating.spawnGaters := by
    rw [hgating]
    exact hall.same.2.2.1
  refine ⟨?_, fun node => ?_⟩
  · rw [Gates, hgaters, hgating]
    exact hgated
  · rw [hgating, hall.resumed]
    constructor
    · rintro ⟨hin | ⟨spawn, hs, hpid, hnode, hlast⟩, hnot⟩
      · exact absurd hin hnot
      · exact ⟨spawn, hs, hnode, requester, ⟨(List.mem_singleton.mp hpid).symm, rfl⟩, hlast⟩
    · rintro ⟨spawn, hs, rfl, controller, ⟨rfl, rfl⟩, hlast⟩
      exact ⟨.inr ⟨spawn, hs, List.mem_singleton_self _, rfl, hlast⟩, (h.waiting spawn hs).2⟩

theorem gatesOn_join (h : s.Gates) (hjoin : s.join node app state ids acl = some t) :
    s.GatesOn (.join node app state ids acl) t := by
  rcases join_eq_some hjoin with ⟨-, rfl⟩ | ⟨hnew, -, -, -, hsame | hregister⟩
  · exact gatesOn_of_same h rfl fun _ _ hw => hw
  · exact gatesOn_of_same h hsame fun _ _ hw => hw
  · obtain ⟨hgated, hresumed⟩ := gated_register h hnew hregister
    exact ⟨hgated, resumesLast_of_same hresumed fun _ _ hw => hw⟩

theorem gatesOn_disconnect {id : ConnectionId} (h : s.Gates)
    (hstep : s.disconnect id = some t) : s.GatesOn (.disconnect id) t := by
  unfold disconnect at hstep
  split at hstep
  next hnode =>
    cases hstep
    obtain ⟨hgated, hresumed⟩ := gated_unregister id h
    exact ⟨hgated, resumesLast_of_same hresumed fun _ _ hw => hw.1 hnode⟩
  next hnode =>
    split at hstep
    · cases hstep
      exact gatesOn_of_disable (.remote id) h rfl fun _ _ =>
        ⟨fun hw => hw.2, fun heq => ⟨hnode, heq⟩⟩
    · cases hstep

theorem gatesOn_destroyChannel (h : s.Gates) : s.GatesOn .destroyChannel s.destroyChannel := by
  cases hchannel : s.channel with
  | none =>
    have hsame : s.destroyChannel = s := by simp only [destroyChannel, hchannel]
    rw [hsame]
    refine gatesOn_of_same h rfl ?_
    rintro _ _ ⟨serial, hserial, -⟩
    rw [hchannel] at hserial
    cases hserial
  | some serial =>
    refine gatesOn_of_disable (.inProcess serial) h ?_ fun other _ => ?_
    · simp only [destroyChannel, hchannel]
      rfl
    · constructor
      · rintro ⟨serial', hserial, rfl⟩
        rw [hchannel] at hserial
        cases hserial
        rfl
      · rintro rfl
        exact ⟨serial, hchannel, rfl⟩

/-- The events that the gating takes part in. -/
def IsGating : Event → Prop
  | .disconnect _ | .destroyChannel | .join .. | .enableSpawnGating _ | .disableSpawnGating _
  | .resume .. => True
  | _ => False

theorem gating_step (he : ¬ IsGating e) (hstep : s.step e = some t) : t.gating = s.gating := by
  cases e with
  | createChannel =>
    cases hstep
    unfold createChannel
    split <;> rfl
  | attach pid persistTimeout requester =>
    obtain ⟨-, ⟨⟩⟩ := Option.ite_none_right_eq_some.mp hstep
    unfold attach
    split <;> rfl
  | opened id | openFailed id | sessionExpired id =>
    obtain ⟨o, -, rfl⟩ := Option.map_eq_some_iff.mp hstep
    rfl
  | connectNode | connectController | tag id tag | untag id tag =>
    cases hstep
    rfl
  | enumerate requester | kill pid requester | reattach id requester | linked id
  | linkFailed id | sessionClosed node id =>
    obtain ⟨-, ⟨⟩⟩ := Option.ite_none_right_eq_some.mp hstep
    rfl
  | _ => exact absurd trivial he

theorem gatesOn_step (h : s.Gates) (hstep : s.step e = some t) : s.GatesOn e t := by
  cases e with
  | disconnect id => exact gatesOn_disconnect h hstep
  | destroyChannel =>
    cases hstep
    exact gatesOn_destroyChannel h
  | join node app state ids acl =>
    simp only [step] at hstep
    split at hstep
    · exact gatesOn_join h hstep
    · cases hstep
  | enableSpawnGating requester =>
    obtain ⟨-, ⟨⟩⟩ := Option.ite_none_right_eq_some.mp hstep
    exact ⟨gated_enableSpawnGating _ requester h, resumesLast_of_same rfl fun _ _ hw => hw⟩
  | disableSpawnGating requester =>
    obtain ⟨-, ⟨⟩⟩ := Option.ite_none_right_eq_some.mp hstep
    exact gatesOn_of_disable requester h rfl fun _ _ => eq_comm
  | resume pid requester =>
    obtain ⟨-, ⟨⟩⟩ := Option.ite_none_right_eq_some.mp hstep
    exact gatesOn_resume h rfl
  | _ => exact gatesOn_of_same h (gating_step id hstep) fun _ _ hw => hw

end

/-- **Spawn gating.** In every state of every run the spawns belong to the registered nodes and
have approvers that gate spawns, the assertion in `resume` has not failed, no node was sent
`resume` twice, only nodes that were told to stay suspended were, and the ones that are still
registered and were not have a spawn. In every step, `resume` is sent exactly to the nodes the
last approver of which withdraws. -/
theorem spawnGating_correct (events : List Event) :
    Always step (fun s =>
      (∀ spawn ∈ s.gating.pendingSpawn, s.gating.nodeAt spawn.pid = some spawn.node ∧
        spawn.pendingApprovers.Nonempty ∧ spawn.pendingApprovers ⊆ s.gating.spawnGaters) ∧
      s.gating.assertionFailed = false ∧
      s.gating.resumed.Nodup ∧
      (∀ node ∈ s.gating.resumed, node ∈ s.gating.held) ∧
      ∀ node ∈ s.gating.held, node ∉ s.gating.resumed → ∀ pid, s.gating.nodeAt pid = some node →
        ∃ spawn ∈ s.gating.pendingSpawn, spawn.node = node) {} events ∧
    EachStep step (fun s e => ∀ t, s.step e = some t → s.ResumesLast e t) {} events := by
  have hinit : ({} : Service).Gates := gated_init
  constructor
  · have hall : Always step Gates {} events :=
      always_of_step (fun s e t h hstep => (gatesOn_step h hstep).1) hinit
    refine hall.mono fun s h => ⟨fun spawn hs => ⟨h.registered spawn hs, h.approvers spawn hs⟩,
      h.asserted, h.once, h.told, h.kept⟩
  · have hkeeps : ∀ s e t, Gates s → True → step s e = some t →
        Gates t ∧ ∀ u, s.step e = some u → s.ResumesLast e u := fun s e t h _ hstep =>
      ⟨(gatesOn_step h hstep).1, fun u hu => (gatesOn_step h hu).2⟩
    exact eachStep_of_invariant hkeeps hinit (eachStep_true _ events)

end Service

end FridaCore.Portal
