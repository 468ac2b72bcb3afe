import Mathlib

/-!
# Connections and tags of a portal

The tables `connections` and `tags` of `src/portal-service.vala`, and who can access what. A
connection has a set of tags, or none at all: a node without one is open to every controller,
and a node with an empty one to no remote controller. Identifiers of connections are not used
again; in the source they are `uint`s.
-/

namespace FridaCore.Portal

open List Function

abbrev ConnectionId := Nat

abbrev Tag := String

/-- A `ControlChannel`. One without a connection is in the process of the service. -/
inductive ControllerId
  | inProcess (serial : Nat)
  | remote (connection : ConnectionId)
  deriving DecidableEq, Repr

structure ConnectionEntry where
  cluster : Bool
  tags : Option (Finset Tag) := none
  deriving DecidableEq

structure Directory where
  connections : ConnectionId → Option ConnectionEntry := fun _ => none
  tags : Finset (Tag × ConnectionId) := ∅
  nextConnectionId : ConnectionId := 1

namespace Directory

def tagsOf (d : Directory) (id : ConnectionId) : Option (Finset Tag) :=
  (d.connections id).bind ConnectionEntry.tags

def setTags (d : Directory) (id : ConnectionId) (entry : ConnectionEntry) (tags : Finset Tag)
    (pairs : Finset (Tag × ConnectionId)) : Directory :=
  { d with
    connections := Function.update d.connections id (some { entry with tags := some tags })
    tags := pairs }

def registerConnection (d : Directory) (cluster : Bool) : Directory :=
  { d with
    connections := Function.update d.connections d.nextConnectionId (some { cluster })
    nextConnectionId := d.nextConnectionId + 1 }

def doTag (d : Directory) (id : ConnectionId) (tag : Tag) : Directory :=
  match d.connections id with
  | none => d
  | some entry =>
    d.setTags id entry (insert tag (entry.tags.getD ∅)) (insert (tag, id) d.tags)

def doUntag (d : Directory) (id : ConnectionId) (tag : Tag) : Directory :=
  match d.connections id with
  | none => d
  | some entry =>
    match entry.tags with
    | none => d
    | some tags => d.setTags id entry (tags.erase tag) (d.tags.erase (tag, id))

def addAcl (d : Directory) (id : ConnectionId) (acl : List Tag) : Directory :=
  match d.connections id with
  | none => d
  | some entry => d.setTags id entry (entry.tags.getD ∅ ∪ acl.toFinset) d.tags

/-- What `on_connection_closed` does after it has closed the peer. -/
def closeConnection (d : Directory) (id : ConnectionId) : Directory :=
  match d.connections id with
  | none => d
  | some entry =>
    { d with
      connections := Function.update d.connections id none
      tags := d.tags.filter fun p => ¬ (p.2 = id ∧ p.1 ∈ entry.tags.getD ∅) }

/-- `can_access`. -/
def canAccess (d : Directory) (node : ConnectionId) : ControllerId → Bool
  | .inProcess _ => true
  | .remote connection =>
    match d.tagsOf node with
    | none => true
    | some acl =>
      match d.tagsOf connection with
      | none => false
      | some tags => decide (∃ tag ∈ acl, tag ∈ tags)

/-- A remote controller has access if the node has no tag set, or they have a tag in common. -/
theorem canAccess_remote {d : Directory} {node connection : ConnectionId} :
    d.canAccess node (.remote connection) = true ↔
      ∀ acl, d.tagsOf node = some acl →
        ∃ tags, d.tagsOf connection = some tags ∧ ∃ tag ∈ acl, tag ∈ tags := by
  cases hnode : d.tagsOf node with
  | none => simp [canAccess, hnode]
  | some acl => cases hconnection : d.tagsOf connection <;> simp [canAccess, hnode, hconnection]

theorem update_eq_some {κ α : Type*} [DecidableEq κ] {f : κ → Option α} {k i : κ}
    {v : Option α} {a : α} :
    update f k v i = some a ↔ i = k ∧ v = some a ∨ i ≠ k ∧ f i = some a := by
  by_cases h : i = k
  · simp [h]
  · simp [h]

def Consistent (d : Directory) : Prop :=
  ∀ id entry, d.connections id = some entry →
    ∀ tag, (tag, id) ∈ d.tags ↔ tag ∈ entry.tags.getD ∅

structure Given (d : Directory) : Prop where
  connections : ∀ id entry, d.connections id = some entry → id < d.nextConnectionId
  tags : ∀ p ∈ d.tags, p.2 < d.nextConnectionId

section
variable {d : Directory} {id : ConnectionId} {entry : ConnectionEntry} {tag : Tag}

theorem consistent_setTags {tags : Finset Tag} {pairs : Finset (Tag × ConnectionId)}
    (hothers : ∀ p, p.2 ≠ id → (p ∈ pairs ↔ p ∈ d.tags)) (h : Consistent d) :
    Consistent (d.setTags id entry tags pairs) ↔ ∀ tag, (tag, id) ∈ pairs ↔ tag ∈ tags := by
  constructor
  · intro hc
    exact hc id { entry with tags := some tags } (update_self ..)
  · intro hid i e he tag
    rcases update_eq_some.mp he with ⟨rfl, hnow⟩ | ⟨hi, hold⟩
    · cases hnow
      exact hid tag
    · exact (hothers (tag, i) hi).trans (h i e hold tag)

theorem given_setTags {tags : Finset Tag} {pairs : Finset (Tag × ConnectionId)}
    (h : Given d) (hid : id < d.nextConnectionId) (hpairs : ∀ p ∈ pairs, p.2 = id ∨ p ∈ d.tags) :
    Given (d.setTags id entry tags pairs) where
  connections i e he := by
    rcases update_eq_some.mp he with ⟨rfl, -⟩ | ⟨-, hold⟩
    · exact hid
    · exact h.connections i e hold
  tags p hp := by
    rcases hpairs p hp with hid' | hold
    · exact hid'.symm ▸ hid
    · exact h.tags p hold

theorem consistent_registerConnection (hg : Given d) (h : Consistent d) (cluster : Bool) :
    Consistent (d.registerConnection cluster) := by
  intro i e he tag
  rcases update_eq_some.mp he with ⟨rfl, hnow⟩ | ⟨-, hold⟩
  · cases hnow
    refine ⟨fun hmem => absurd (hg.tags _ hmem) (Nat.lt_irrefl _), fun hmem => ?_⟩
    exact absurd hmem (Finset.notMem_empty _)
  · exact h i e hold tag

theorem given_registerConnection (h : Given d) (cluster : Bool) :
    Given (d.registerConnection cluster) where
  connections i e he := by
    rcases update_eq_some.mp he with ⟨rfl, -⟩ | ⟨-, hold⟩
    · exact Nat.lt_succ_self _
    · exact Nat.lt_succ_of_lt (h.connections i e hold)
  tags p hp := Nat.lt_succ_of_lt (h.tags p hp)

theorem consistent_doTag (h : Consistent d) : Consistent (d.doTag id tag) := by
  unfold doTag
  cases hc : d.connections id with
  | none => exact h
  | some entry =>
    refine (consistent_setTags (fun p hp => ?_) h).mpr fun t => ?_
    · have hne : p ≠ (tag, id) := fun heq => hp (by rw [heq])
      simp [hne]
    · simp [h id entry hc t]

theorem given_doTag (h : Given d) : Given (d.doTag id tag) := by
  unfold doTag
  cases hc : d.connections id with
  | none => exact h
  | some entry =>
    refine given_setTags h (h.connections id entry hc) fun p hp => ?_
    rcases Finset.mem_insert.mp hp with rfl | hold
    · exact .inl rfl
    · exact .inr hold

theorem consistent_doUntag (h : Consistent d) : Consistent (d.doUntag id tag) := by
  unfold doUntag
  cases hc : d.connections id with
  | none => exact h
  | some entry =>
    obtain ⟨cluster, tags⟩ := entry
    cases tags with
    | none => exact h
    | some tags =>
      refine (consistent_setTags (fun p hp => ?_) h).mpr fun t => ?_
      · have hne : p ≠ (tag, id) := fun heq => hp (by rw [heq])
        simp [hne]
      · simp [h id _ hc t]

theorem given_doUntag (h : Given d) : Given (d.doUntag id tag) := by
  unfold doUntag
  cases hc : d.connections id with
  | none => exact h
  | some entry =>
    obtain ⟨cluster, tags⟩ := entry
    cases tags with
    | none => exact h
    | some tags =>
      exact given_setTags h (h.connections id _ hc) fun p hp => .inr (Finset.mem_of_mem_erase hp)

theorem consistent_addAcl (h : Consistent d) (hc : d.connections id = some entry)
    (acl : List Tag) :
    Consistent (d.addAcl id acl) ↔ ∀ tag ∈ acl, tag ∈ entry.tags.getD ∅ := by
  simp only [addAcl, hc]
  rw [consistent_setTags (fun _ _ => Iff.rfl) h]
  simp only [h id entry hc, Finset.mem_union, mem_toFinset]
  exact ⟨fun hall tag hmem => (hall tag).mpr (.inr hmem),
    fun hall tag => ⟨.inl, fun hor => hor.elim (fun hm => hm) (hall tag)⟩⟩

theorem given_addAcl (h : Given d) (acl : List Tag) : Given (d.addAcl id acl) := by
  unfold addAcl
  cases hc : d.connections id with
  | none => exact h
  | some entry => exact given_setTags h (h.connections id entry hc) fun p hp => .inr hp

theorem consistent_closeConnection (h : Consistent d) : Consistent (d.closeConnection id) := by
  unfold closeConnection
  cases hc : d.connections id with
  | none => exact h
  | some entry =>
    intro i e he tag
    rcases update_eq_some.mp he with ⟨-, hnow⟩ | ⟨hi, hold⟩
    · cases hnow
    · simp [hi, h i e hold tag]

theorem given_closeConnection (h : Given d) : Given (d.closeConnection id) := by
  unfold closeConnection
  cases hc : d.connections id with
  | none => exact h
  | some entry =>
    refine ⟨fun i e he => ?_, fun p hp => h.tags p (Finset.mem_of_mem_filter p hp)⟩
    rcases update_eq_some.mp he with ⟨-, hnow⟩ | ⟨-, hold⟩
    · cases hnow
    · exact h.connections i e hold

end

theorem tagsOf_doUntag_doTag {d : Directory} {id : ConnectionId} {entry : ConnectionEntry}
    {tag : Tag} (hc : d.connections id = some entry) (hnew : tag ∉ entry.tags.getD ∅)
    (i : ConnectionId) :
    ((d.doTag id tag).doUntag id tag).tagsOf i =
      if i = id then some (entry.tags.getD ∅) else d.tagsOf i := by
  have htag : d.doTag id tag =
      d.setTags id entry (insert tag (entry.tags.getD ∅)) (insert (tag, id) d.tags) := by
    simp only [doTag, hc]
  have hset : (d.setTags id entry (insert tag (entry.tags.getD ∅))
      (insert (tag, id) d.tags)).connections id =
        some { entry with tags := some (insert tag (entry.tags.getD ∅)) } :=
    update_self ..
  rw [htag, doUntag, hset]
  dsimp only
  rw [Finset.erase_insert hnew]
  by_cases hi : i = id
  · simp [hi, tagsOf, setTags]
  · simp [hi, tagsOf, setTags]

end Directory

end FridaCore.Portal
