import FridaCore.Gdb.Responses

/-!
# Responses go to the queries they are for

A query that is cancelled stays among the pending responses until its reply arrives, so
the pending responses are the requests the stub has yet to answer, in the same order.
This is what makes the first wildcard among them the one a reply is for.
-/

namespace FridaCore.Gdb

open Connection List

namespace Query

/-- What is known of a query at any time: its handler runs once; the packets it has got
satisfy `mine`; and it is about to be resumed, or has been, if this is `due`. -/
structure Kept (x : Query) (mine : Packet → Prop) (due : Prop) : Prop where
  once : x.resumptions.length = if x.handler then 0 else 1
  response : ∀ packet ∈ x.response, mine packet
  own : ∀ cancelled packet, (cancelled, .ok packet) ∈ x.resumptions →
    cancelled = false ∧ mine packet
  resumed : due ∨ x.cancelSource = false → 0 < x.idles ∨ x.handler = false

variable {x : Query} {mine mine' : Packet → Prop} {due due' : Prop}

theorem Kept.mono (h : x.Kept mine due) (hmine : ∀ p, mine p → mine' p) (hdue : due' → due) :
    x.Kept mine' due' where
  once := h.once
  response packet hp := hmine packet (h.response packet hp)
  own cancelled packet hp := (h.own cancelled packet hp).imp_right (hmine packet)
  resumed hd := h.resumed (hd.imp_left hdue)

theorem kept_fresh (predicate : Option ResponsePredicate) (mine : Packet → Prop) :
    ({ predicate } : Query).Kept mine False := by
  constructor <;> simp

section
variable (h : x.Kept mine due)
include h

theorem Kept.completeWithResponse (hp : mine packet) :
    (x.completeWithResponse packet).Kept mine due' where
  __ := h
  response p hmem := by
    obtain rfl : packet = p := by simpa [Query.completeWithResponse, invokeHandlerInIdle] using hmem
    exact hp
  resumed _ := .inl (Nat.succ_pos _)

theorem Kept.completeWithError (e : QueryError) : (x.completeWithError e).Kept mine due' where
  __ := h
  resumed _ := .inl (Nat.succ_pos _)

theorem Kept.fireCancelSource :
    ({ x with cancelSource := false }.completeWithError .cancelled).Kept mine due where
  __ := h
  resumed _ := .inl (Nat.succ_pos _)

theorem Kept.cancel : { x with cancelled := true }.Kept mine due :=
  { h with }

end

theorem result_eq_ok (h : x.result = .ok packet) :
    x.cancelled = false ∧ x.response = some packet := by
  unfold result at h
  grind

theorem handler_runIdle (x : Query) : x.runIdle.handler = false := by
  cases hhandler : x.handler <;> simp [runIdle, hhandler]

theorem idles_runIdle (x : Query) : x.runIdle.idles = x.idles - 1 := by
  cases hhandler : x.handler <;> simp [runIdle, hhandler]

theorem Kept.runIdle (h : x.Kept mine due) : x.runIdle.Kept mine due := by
  cases hhandler : x.handler with
  | false =>
    have heq : x.runIdle = { x with idles := x.idles - 1 } := by simp [Query.runIdle, hhandler]
    rw [heq]
    exact { h with resumed := fun _ => .inr hhandler }
  | true =>
    have hnil : x.resumptions = [] := by simpa [hhandler] using h.once
    simp only [Query.runIdle, hhandler, if_true, hnil]
    refine ⟨rfl, h.response, ?_, fun _ => .inr rfl⟩
    intro cancelled packet hmem
    obtain ⟨rfl, hresult⟩ : cancelled = x.cancelled ∧ .ok packet = x.result := by
      simpa [result] using hmem
    obtain ⟨hcancelled, hresponse⟩ := result_eq_ok hresult.symm
    exact ⟨hcancelled, h.response packet hresponse⟩

end Query

namespace Connection

def isWildcard (s : Connection) (q : Nat) : Bool := (s.query q).predicate.isNone

def wildcards (s : Connection) : List Nat := (List.range s.issued).filter s.isWildcard

def wildcardReplies (s : Connection) : List Packet :=
  (s.answers.filter fun a => s.isWildcard a.1).map Prod.snd

/-- What the connection can rely on: predicates take the replies to their own query and
no other packet; a reply that is left to wildcards is not taken for a notification, and
a notification is. -/
def Allowed (s : Connection) : Event → Prop
  | .reply packet => ∀ q ∈ s.unanswered.head?,
      (∀ other ∈ s.pendingResponses, other ≠ q → s.action packet other = .keepTrying) ∧
        if s.isWildcard q then notificationType packet.payload = none
        else s.action packet q ≠ .keepTrying
  | .notification packet =>
      (∀ other ∈ s.pendingResponses, s.action packet other = .keepTrying) ∧
        (notificationType packet.payload).isSome
  | _ => True

instance (s : Connection) : (event : Event) → Decidable (s.Allowed event)
  | .reply _ => inferInstanceAs (Decidable (∀ q ∈ s.unanswered.head?, _ ∧ _))
  | .notification _ => inferInstanceAs (Decidable (_ ∧ _))
  | .query _ | .cancel _ | .cancelled _ | .readError _ | .idle _ =>
    inferInstanceAs (Decidable True)

/-- Every wildcard reply has gone to the query it is for, and every query is resumed once: if
there is a reason to, it has been or an idle source is left, and after one has run it has been. -/
structure Matched (s : Connection) : Prop where
  /-- The k-th delivery is to the k-th wildcard query. -/
  inOrder : s.delivered.map Prod.fst = s.wildcards.take s.delivered.length
  /-- The k-th delivery is of the k-th wildcard reply. -/
  replies : s.delivered.map Prod.snd = s.wildcardReplies
  /-- A query that returns a packet has not been cancelled, and the packet has been sent
  in reply to it. -/
  own : ∀ q < s.issued, ∀ cancelled packet, (cancelled, .ok packet) ∈ (s.query q).resumptions →
    cancelled = false ∧ (q, packet) ∈ s.answers
  once : ∀ q < s.issued, (s.query q).resumptions.length ≤ 1
  resumed : ∀ q < s.issued, (s.query q).idles = 0 →
    q ∉ s.unanswered ∨ s.closed ∨ (s.query q).cancelSource = false →
      (s.query q).resumptions.length = 1
  resumes : ∀ q < s.issued, 0 < (s.query q).idles → ∃ t, s.step (.idle q) = some t ∧
    (t.query q).idles < (s.query q).idles ∧ (t.query q).resumptions.length = 1

/-- The invariant behind `Matched`. -/
structure Ordered (s : Connection) : Prop where
  pending : s.closed = false → s.pendingResponses = s.unanswered
  unanswered_lt : ∀ q ∈ s.unanswered, q < s.issued
  answers_lt : ∀ a ∈ s.answers, a.1 < s.issued
  split : s.delivered.map Prod.fst ++ s.unanswered.filter s.isWildcard = s.wildcards
  replies : s.delivered.map Prod.snd = s.wildcardReplies
  queries : ∀ q < s.issued,
    (s.query q).Kept (fun packet => (q, packet) ∈ s.answers) (q ∉ s.unanswered ∨ s.closed)

variable {s t : Connection} {q : Nat} {packet : Packet}

theorem Ordered.matched (h : s.Ordered) : s.Matched where
  inOrder := by
    have := congrArg (take (s.delivered.map Prod.fst).length) h.split
    simpa using this
  replies := h.replies
  own q hq := (h.queries q hq).own
  once q hq := by
    rw [(h.queries q hq).once]
    split <;> simp
  resumed q hq hidles hdue := by
    have hkept := h.queries q hq
    rw [hkept.once]
    rw [← or_assoc] at hdue
    simpa [hidles] using hkept.resumed hdue
  resumes q hq hidles := by
    have hrun := (h.queries q hq).runIdle.once
    rw [Query.handler_runIdle] at hrun
    refine ⟨s.update q Query.runIdle, if_pos ⟨hq, hidles⟩, ?_, ?_⟩
    · simpa [Connection.update, Query.idles_runIdle] using hidles
    · simpa [Connection.update] using hrun

theorem isWildcard_update (f : Query → Query) (hf : ∀ x, (f x).predicate = x.predicate) :
    (s.update q f).isWildcard = s.isWildcard := by
  funext other
  by_cases hother : other = q
  · simp [isWildcard, update, hother, hf]
  · simp [isWildcard, update, hother]

theorem kept_update (f : Query → Query) (hsame : other = q → (f (s.query q)).Kept mine due)
    (hother : other ≠ q → (s.query other).Kept mine due) :
    ((s.update q f).query other).Kept mine due := by
  by_cases h : other = q
  · simpa [update, h] using hsame h
  · simpa [update, h] using hother h

theorem Ordered.update (h : s.Ordered) (f : Query → Query)
    (hf : ∀ x, (f x).predicate = x.predicate)
    (hkept : ∀ x mine due, Query.Kept x mine due → (f x).Kept mine due) :
    (s.update q f).Ordered where
  __ := h
  split := by
    simp only [wildcards, isWildcard_update f hf]
    exact h.split
  replies := by
    simp only [wildcardReplies, isWildcard_update f hf]
    exact h.replies
  queries other hlt := by
    refine kept_update f ?_ fun _ => h.queries other hlt
    rintro rfl
    exact hkept _ _ _ (h.queries other hlt)

theorem isWildcard_fail (e : Error) : (s.fail e).isWildcard = s.isWildcard := by
  funext q
  simp only [isWildcard, fail]
  split <;> rfl

theorem Ordered.fail (h : s.Ordered) (hclosed : s.closed = false) (e : Error) :
    (s.fail e).Ordered where
  __ := h
  pending := by simp [Connection.fail]
  split := by
    simp only [wildcards, isWildcard_fail e]
    exact h.split
  replies := by
    simp only [wildcardReplies, isWildcard_fail e]
    exact h.replies
  queries q hlt := by
    simp only [Connection.fail]
    split
    · exact (h.queries q hlt).completeWithError _
    · next hmem =>
      rw [h.pending hclosed] at hmem
      exact (h.queries q hlt).mono (fun _ => id) fun _ => .inl hmem

theorem Ordered.issue (h : s.Ordered) (hclosed : s.closed = false)
    (predicate : Option ResponsePredicate) : (s.issue predicate).Ordered := by
  have hwild : ∀ q < s.issued, (s.issue predicate).isWildcard q = s.isWildcard q := by
    intro q hq
    simp [isWildcard, Connection.issue, Nat.ne_of_lt hq]
  refine ⟨fun _ => ?_, ?_, ?_, ?_, ?_, ?_⟩
  · simp [Connection.issue, h.pending hclosed]
  · intro q hq
    rcases mem_append.mp hq with hq | hq
    · exact Nat.lt_succ_of_lt (h.unanswered_lt q hq)
    · obtain rfl := mem_singleton.mp hq
      exact Nat.lt_succ_self _
  · exact fun a ha => Nat.lt_succ_of_lt (h.answers_lt a ha)
  · have hrange : (range s.issued).filter (s.issue predicate).isWildcard = s.wildcards :=
      filter_congr fun q hq => hwild q (mem_range.mp hq)
    have hunanswered : s.unanswered.filter (s.issue predicate).isWildcard =
        s.unanswered.filter s.isWildcard :=
      filter_congr fun q hq => hwild q (h.unanswered_lt q hq)
    calc s.delivered.map Prod.fst ++
          (s.unanswered ++ [s.issued]).filter (s.issue predicate).isWildcard
        = s.wildcards ++ [s.issued].filter (s.issue predicate).isWildcard := by
          rw [filter_append, hunanswered, ← append_assoc, h.split]
      _ = (s.issue predicate).wildcards := by
          rw [← hrange, ← filter_append, ← range_succ]
          rfl
  · have hanswers : s.answers.filter (fun a => (s.issue predicate).isWildcard a.1) =
        s.answers.filter fun a => s.isWildcard a.1 :=
      filter_congr fun a ha => hwild a.1 (h.answers_lt a ha)
    exact h.replies.trans (congrArg (map Prod.snd) hanswers.symm)
  · intro q hq
    by_cases hnew : q = s.issued
    · subst hnew
      simp only [Connection.issue, Function.update_self]
      exact (Query.kept_fresh predicate _).mono (fun _ => id) (by simp [hclosed])
    · simp only [Connection.issue, Function.update_of_ne hnew]
      have hlt : q < s.issued := lt_of_le_of_ne (Nat.lt_succ_iff.mp hq) hnew
      refine (h.queries q hlt).mono (fun _ => id) (Or.imp_left ?_)
      simp [hnew]

theorem action_wildcard (hwild : s.isWildcard q) : s.action packet q = .keepTrying := by
  rw [isWildcard, Option.isNone_iff_eq_none] at hwild
  simp [action, hwild]

/-- The oldest request is completed by a reply, which has been delivered if nobody else
but a wildcard query can take it. -/
def completed (s : Connection) (q : Nat) (rest : List Nat) (packet : Packet) : Connection :=
  update { s with
    answers := s.answers ++ [(q, packet)]
    unanswered := rest
    pendingResponses := rest
    delivered := s.delivered ++ if s.isWildcard q then [(q, packet)] else [] } q
      fun x => x.completeWithResponse packet

theorem isWildcard_completed : (s.completed q rest packet).isWildcard = s.isWildcard :=
  isWildcard_update (fun x => x.completeWithResponse packet) fun _ => rfl

theorem wildcardReplies_append (s : Connection) (q : Nat) (packet : Packet) :
    ((s.answers ++ [(q, packet)]).filter fun a => s.isWildcard a.1).map Prod.snd =
      s.wildcardReplies ++ if s.isWildcard q then [packet] else [] := by
  cases hwild : s.isWildcard q with
  | false | true => simp [wildcardReplies, hwild]

theorem answers_append_lt (h : s.Ordered) (hq : q < s.issued) :
    ∀ a ∈ s.answers ++ [(q, packet)], a.1 < s.issued := by
  intro a ha
  rcases mem_append.mp ha with ha | ha
  · exact h.answers_lt a ha
  · obtain rfl := mem_singleton.mp ha
    exact hq

theorem Ordered.completed (h : s.Ordered) (hunanswered : s.unanswered = q :: rest)
    (packet : Packet) : (s.completed q rest packet).Ordered where
  pending _ := rfl
  unanswered_lt other hother :=
    h.unanswered_lt other (hunanswered ▸ mem_cons_of_mem q hother)
  answers_lt := answers_append_lt h (h.unanswered_lt q (hunanswered ▸ mem_cons_self))
  split := by
    have hsplit := h.split
    rw [hunanswered] at hsplit
    simp only [wildcards, isWildcard_completed]
    refine Eq.trans ?_ hsplit
    cases hwild : s.isWildcard q with
    | false | true => simp [Connection.completed, Connection.update, hwild]
  replies := by
    simp only [wildcardReplies, isWildcard_completed]
    refine Eq.trans ?_ (wildcardReplies_append s q packet).symm
    rw [← h.replies]
    cases hwild : s.isWildcard q with
    | false | true => simp [Connection.completed, Connection.update, hwild]
  queries other hother := by
    have hmine : ∀ p, (other, p) ∈ s.answers → (other, p) ∈ s.answers ++ [(q, packet)] :=
      fun p hp => mem_append_left _ hp
    have hkept := h.queries other hother
    refine kept_update _ ?_ ?_
    · rintro rfl
      exact (hkept.mono hmine id).completeWithResponse (mem_append_right _ (by simp))
    · intro hne
      refine hkept.mono hmine (Or.imp_left ?_)
      simp [hunanswered, hne, Connection.completed, Connection.update]

theorem Ordered.absorbed (h : s.Ordered) (hunanswered : s.unanswered = q :: rest)
    (hwild : s.isWildcard q = false) :
    Ordered { s with answers := s.answers ++ [(q, packet)] } where
  __ := h
  answers_lt := answers_append_lt h (h.unanswered_lt q (hunanswered ▸ mem_cons_self))
  replies := by
    have := wildcardReplies_append s q packet
    rw [hwild] at this
    refine Eq.trans ?_ this.symm
    simp [h.replies]
  queries other hother :=
    (h.queries other hother).mono (fun _ hp => mem_append_left _ hp) id

theorem Ordered.reply (h : s.Ordered) (hclosed : s.closed = false)
    (hunanswered : s.unanswered = q :: rest) (hallowed : s.Allowed (.reply packet)) :
    ((s.answer q packet).process packet).Ordered := by
  have hpending : s.pendingResponses = q :: rest := (h.pending hclosed).trans hunanswered
  obtain ⟨hothers, hown⟩ := hallowed q (by simp [hunanswered])
  have hcompleted := h.completed hunanswered packet
  cases hwild : s.isWildcard q with
  | true =>
    have hreject : ∀ other ∈ s.pendingResponses, s.action packet other = .keepTrying := by
      intro other hother
      by_cases hsame : other = q
      · exact hsame ▸ action_wildcard hwild
      · exact hothers other hother hsame
    have hfirst : s.pendingResponses.find? (fun q => (s.query q).predicate.isNone) = some q := by
      rw [isWildcard] at hwild
      simp [hpending, hwild]
    rw [process_wildcard (s := s.answer q packet) hclosed hfirst hreject
      (by simpa [hwild] using hown)]
    simpa [answer, hwild, action_wildcard hwild, hpending, hunanswered, Connection.completed]
      using hcompleted
  | false =>
    have haction : s.action packet q ≠ .keepTrying := by simpa [hwild] using hown
    have hfirst : s.pendingResponses.find? (fun q => s.action packet q ≠ .keepTrying) = some q := by
      simp [hpending, haction]
    rw [process_specific (s := s.answer q packet) hfirst]
    split
    · next habsorb =>
      have habsorb : s.action packet q = .absorb := habsorb
      simpa [answer, habsorb] using h.absorbed hunanswered hwild
    · next hneither =>
      have hneither : s.action packet q ≠ .absorb := hneither
      simpa [answer, hneither, hwild, hpending, hunanswered, Connection.completed] using hcompleted

theorem ordered_initial : Ordered {} := by
  constructor <;> simp [wildcards, wildcardReplies]

theorem Ordered.step (h : s.Ordered) (hallowed : s.Allowed event)
    (ht : s.step event = some t) : t.Ordered := by
  cases event with
  | query predicate =>
    cases hclosed : s.closed with
    | true =>
      obtain rfl : s = t := by simpa [Connection.step, hclosed] using ht
      exact h
    | false =>
      obtain rfl : s.issue predicate = t := by simpa [Connection.step, hclosed] using ht
      exact h.issue hclosed predicate
  | cancel q =>
    obtain ⟨-, ⟨⟩⟩ := Option.ite_none_right_eq_some.mp ht
    exact h.update _ (fun _ => rfl) fun _ _ _ hx => hx.cancel
  | cancelled q =>
    obtain ⟨-, ⟨⟩⟩ := Option.ite_none_right_eq_some.mp ht
    exact h.update _ (fun _ => rfl) fun _ _ _ hx => hx.fireCancelSource
  | reply packet =>
    cases hclosed : s.closed with
    | true => simp [Connection.step, hclosed] at ht
    | false =>
      cases hunanswered : s.unanswered with
      | nil => simp [Connection.step, hclosed, hunanswered] at ht
      | cons q rest =>
        obtain rfl : (s.answer q packet).process packet = t := by
          simpa [Connection.step, hclosed, hunanswered] using ht
        exact h.reply hclosed hunanswered hallowed
  | notification packet =>
    obtain ⟨hclosed, ⟨⟩⟩ := Option.ite_none_left_eq_some.mp ht
    have hclosed : s.closed = false := by simpa using hclosed
    rcases process_notification hclosed hallowed.1 hallowed.2 with heq | ⟨e, heq⟩
    · rw [heq]
      exact h
    · rw [heq]
      exact h.fail hclosed e
  | readError e =>
    obtain ⟨hclosed, ⟨⟩⟩ := Option.ite_none_left_eq_some.mp ht
    exact h.fail (by simpa using hclosed) e
  | idle q =>
    obtain ⟨-, ⟨⟩⟩ := Option.ite_none_right_eq_some.mp ht
    refine h.update _ (fun x => ?_) fun _ _ _ hx => hx.runIdle
    simp only [Query.runIdle]
    split <;> rfl

/-- Whatever is issued, cancelled, sent and dispatched in whatever order, every reply
goes to the query it is for and every query is resumed once. -/
theorem responses_matched (events : List Event)
    (h : Machine.EachStep step Allowed {} events) :
    Machine.Always step Matched {} events := by
  refine Machine.Always.mono (fun _ => Ordered.matched) ?_
  exact Machine.always_of_eachStep (fun _ _ _ hs hok ht => hs.step hok ht) ordered_initial h

/-- A cancelled query, one with a predicate, one that gets its reply, and a stop. -/
def session : List Event :=
  [.query none, .query (some remoteCommandPredicate), .query none, .cancel 0, .cancelled 0, .idle 0,
    .notification (Text.ofString "T05"), .reply (Text.ofString "0011"),
      .reply (Text.ofString "O6869"),
    .idle 0, .reply okReply, .reply (Text.ofString "2233"), .idle 2, .idle 1]

theorem responses_matched_session :
    Machine.EachStep step Allowed {} session ∧ Machine.Always step Matched {} session ∧
      (Machine.exec step {} session).map (fun s => s.delivered) =
        some [(0, Text.ofString "0011"), (2, Text.ofString "2233")] ∧
      (Machine.exec step {} session).map
          (fun s => (range s.issued).map fun q => (s.query q).resumptions) =
        some [[(true, .error .cancelled)], [(false, .ok okReply)],
          [(false, .ok (Text.ofString "2233"))]] := by
  have h : Machine.EachStep step Allowed {} session := by decide +kernel
  exact ⟨h, responses_matched session h, by decide +kernel, by decide +kernel⟩

end Connection

end FridaCore.Gdb
