import FridaCore.Fruity.DtxFragments

/-!
# Putting DTX messages together

When the input is an interleaving of whole messages, the entries of an identifier are what has
come of its message so far, in the order in which it came. The message is handed over when the
last of its fragments comes, unless one before it was not accepted: an error ends the loop.
-/

namespace FridaCore.Fruity.Dtx

open List Function Prod UInt32

structure Fragmented (m : List Fragment) : Prop where
  several : 2 ≤ m.length
  indexed : IndexedFrom 0 m
  count : ∀ f ∈ m, f.count.toNat = m.length
  identifier : ∀ f ∈ m, ∀ g ∈ m, f.identifier = g.identifier
  size : total m ≤ maxMessageSize

def withTotal : List Fragment → List Fragment
  | [] => []
  | first :: rest => { first with dataSize := .ofNat (total (first :: rest)) } :: rest

def kept : List Fragment → Option (List Fragment)
  | [] => none
  | first :: rest =>
    if (first :: rest).length = first.count.toNat then none else some (withTotal (first :: rest))

/-- The call of `process_message` for a whole message. -/
def handed (m : List Fragment) : List (List UInt8 × Fragment) :=
  (withTotal m).head?.toList.map fun first => (payload m, first)

theorem IndexedFrom.le_index (h : IndexedFrom i fs) :
    ∀ f ∈ fs, i ≤ f.index.toNat := by
  induction fs generalizing i with
  | nil => simp
  | cons f fs ih =>
    intro g hg
    rcases mem_cons.mp hg with rfl | hg
    · exact h.1.ge
    · have := ih h.2 g hg
      omega

theorem IndexedFrom.pairwise (h : IndexedFrom i fs) :
    fs.Pairwise fun a b => a.index < b.index := by
  induction fs generalizing i with
  | nil => exact .nil
  | cons f fs ih =>
    refine pairwise_cons.mpr ⟨fun g hg => ?_, ih h.2⟩
    have hle := h.2.le_index g hg
    rw [UInt16.lt_iff_toNat_lt, h.1]
    omega

theorem insertionSort_of_perm {fs m : List Fragment} (hp : fs.Perm m) (hm : IndexedFrom 0 m) :
    fs.insertionSort (fun a b => a.index ≤ b.index) = m := by
  have hsorted := hm.pairwise
  have hnodup : (m.map Fragment.index).Nodup :=
    (pairwise_map.mpr hsorted).imp fun hlt => (UInt16.ne_of_lt hlt)
  have hperm := (perm_insertionSort (fun a b : Fragment => a.index ≤ b.index) fs).trans hp
  refine hperm.eq_of_pairwise (fun a b ha hb hab hba => ?_) (pairwise_insertionSort _ fs)
    (hsorted.imp fun hlt => UInt16.le_of_lt hlt)
  exact inj_on_of_nodup_map hnodup (hperm.mem_iff.mp ha) hb (UInt16.le_antisymm hab hba)

theorem assemble_of_perm (hp : fs.Perm m) (hfirst : fs.head? = m.head?)
    (hm : IndexedFrom 0 m) : assemble (withTotal fs) (total fs) = .message (payload m) := by
  cases m with
  | nil =>
    rw [hp.eq_nil]
    rfl
  | cons x ys =>
    cases fs with
    | nil => cases hfirst
    | cons x' xs =>
      cases hfirst
      have htotal := total_perm hp
      set first := { x with dataSize := .ofNat (total (x :: xs)) } with hdef
      have hperm : (first :: xs).Perm (first :: ys) := (hp.cons_inv).cons first
      have hindexed : IndexedFrom 0 (first :: ys) := hm
      have hsize : (replicate (total (x :: xs)) (0 : UInt8)).length =
          0 + total (first :: ys) := by
        rw [length_replicate, htotal, Nat.zero_add]
        rfl
      rw [withTotal, ← hdef, assemble, insertionSort_of_perm hperm hindexed,
        copyFragments_indexed hindexed hsize.ge, drop_eq_nil_of_le hsize.le, take_zero,
        nil_append, append_nil]
      rfl

theorem addEntry_kept (hnone : seen = [] → f.index = 0)
    (hpart : ∀ first ∈ seen, seen.length ≠ first.count.toNat) :
    addEntry f (kept seen) = some (withTotal (seen ++ [f])) := by
  cases seen with
  | nil =>
    have hi : ¬ f.index ≠ 0 := not_not_intro (hnone rfl)
    simp only [kept, addEntry, if_neg hi, addSize, nil_append, withTotal, total_cons, total_nil]
    simp [Fragment.data]
  | cons first rest =>
    have hkept : kept (first :: rest) = some (withTotal (first :: rest)) :=
      if_neg (hpart first mem_cons_self)
    rw [hkept]
    simp only [addEntry, withTotal, cons_append, addSize, total_cons, total_append, total_nil]
    simp [Fragment.data, ofNat_add, add_assoc]

/-- A fragment of a message comes when some of the message have come and some are to come. -/
structure Part (seen : List Fragment) (f : Fragment) (later m : List Fragment) : Prop where
  fragmented : Fragmented m
  perm : (seen ++ f :: later).Perm m
  first : (seen ++ f :: later).head? = m.head?

section
variable {seen later m : List Fragment} {f : Fragment} (h : Part seen f later m)
include h

theorem Part.mem : f ∈ m := h.perm.mem_iff.mp (by simp)

theorem Part.length : seen.length + 1 + later.length = m.length := by
  rw [← h.perm.length_eq, length_append, length_cons]
  omega

theorem Part.count (hg : g ∈ seen ++ [f]) : g.count.toNat = m.length := by
  refine h.fragmented.count g (h.perm.mem_iff.mp ?_)
  rw [append_cons]
  exact mem_append_left _ hg

theorem Part.count_ne_one : f.count ≠ 1 := by
  intro hone
  have hcount := h.fragmented.count f h.mem
  have hseveral := h.fragmented.several
  have : (1 : UInt16).toNat = 1 := rfl
  rw [hone] at hcount
  omega

theorem Part.kept_append : kept (seen ++ [f]) =
    if later = [] then none else some (withTotal (seen ++ [f])) := by
  have hlength := h.length
  obtain ⟨x, xs, hseen⟩ := exists_cons_of_ne_nil (concat_ne_nil f seen)
  have hcount := h.count (hseen ▸ mem_cons_self)
  have hxs : (x :: xs).length = seen.length + 1 := by rw [← hseen, length_append]; rfl
  rw [hseen, kept]
  by_cases hlast : later = []
  · rw [if_pos hlast, if_pos]
    rw [hlast, length_nil] at hlength
    omega
  · have := length_pos_of_ne_nil hlast
    rw [if_neg hlast, if_neg]
    omega

theorem Part.addEntry : addEntry f (kept seen) = some (withTotal (seen ++ [f])) := by
  refine addEntry_kept (fun hnil => ?_) (fun first hmem heq => ?_)
  · have hfirst := h.first
    have hindexed := h.fragmented.indexed
    subst hnil
    cases m with
    | nil => cases hfirst
    | cons x ys =>
      cases hfirst
      exact UInt16.toNat_inj.mp hindexed.1
  · have hcount := h.count (mem_append_left [f] hmem)
    have hlength := h.length
    omega

theorem Part.total_le : total (seen ++ [f]) ≤ maxMessageSize := by
  refine le_trans ?_ h.fragmented.size
  rw [← total_perm h.perm]
  simp only [total_append, total_cons, total_nil]
  omega

end

theorem handed_of_perm (hp : (x :: xs).Perm m) (hfirst : (x :: xs).head? = m.head?) :
    handed m = [(payload m, { x with dataSize := .ofNat (total (x :: xs)) })] := by
  cases m with
  | nil => cases hfirst
  | cons y ys =>
    cases hfirst
    rw [total_perm hp]
    rfl

section
variable (process : List UInt8 → Fragment → Except Error Unit)

/-- `process_message` does not throw for a whole message. -/
def accepted (m : List Fragment) : Bool :=
  (handed m).all fun call => (process call.1 call.2).toOption.isSome

theorem receive_part (hopen : c.closed = false) (h : Part seen f later m)
    (hkept : c.fragments f.identifier = kept seen) :
    receive process c f =
      { c with
        fragments := update c.fragments f.identifier (kept (seen ++ [f]))
        processed := c.processed ++ if later = [] then handed m else []
        closed := later.isEmpty && !accepted process m } := by
  have hcount := h.fragmented.count f h.mem
  have hlength := h.length
  have hle := h.total_le
  have hentry := h.addEntry
  rw [h.kept_append]
  have hperm := h.perm
  have hhead := h.first
  rw [append_cons] at hperm hhead
  obtain ⟨x, xs, hseen⟩ := exists_cons_of_ne_nil (concat_ne_nil f seen)
  have hxs : xs.length + 1 = seen.length + 1 := by
    rw [← length_cons, ← hseen, length_append]
    rfl
  rw [hseen] at hle hentry hperm hhead ⊢
  have hsize : (ofNat (total (x :: xs))).toNat = total (x :: xs) := by
    have hmax : maxMessageSize < size := by decide
    exact toNat_ofNat_of_lt' (by omega)
  have hfits : ¬ (f.bytes.isSome ∧ total (x :: xs) > maxMessageSize) := by omega
  rw [receive, if_neg (by simp [hopen]), if_neg h.count_ne_one, hkept, hentry, withTotal]
  dsimp only
  rw [hsize, if_neg hfits, length_cons]
  by_cases hlast : later = []
  · subst hlast
    rw [append_nil] at hperm hhead
    have hhanded := handed_of_perm hperm hhead
    have hmessage := assemble_of_perm hperm hhead h.fragmented.indexed
    rw [withTotal] at hmessage
    rw [length_nil] at hlength
    rw [if_pos (by omega), hmessage, if_pos rfl, if_pos rfl, accepted, hhanded]
    simp [handOver]
  · have := length_pos_of_ne_nil hlast
    rw [if_neg (by omega), if_neg hlast, if_neg hlast, append_nil,
      isEmpty_eq_false_iff.mpr hlast, Bool.false_and, ← hopen]

end

def ofIdentifier (id : UInt32) (fs : List Fragment) : List Fragment :=
  fs.filter fun f => f.identifier = id

/-- The fragments of messages with distinct identifiers, in an order in which the first
fragment of each message comes before its others. -/
structure Interleaving (arrivals : List Fragment) (messages : List (List Fragment)) : Prop where
  fragmented : ∀ m ∈ messages, Fragmented m
  distinct : messages.Pairwise fun m n => ∀ f ∈ m, ∀ g ∈ n, f.identifier ≠ g.identifier
  perm : arrivals.Perm messages.flatten
  first : ∀ m ∈ messages, ∀ f ∈ m, (ofIdentifier f.identifier arrivals).head? = m.head?

theorem ofIdentifier_eq_self {id : UInt32}
    (h : ∀ f ∈ fs, f.identifier = id) : ofIdentifier id fs = fs :=
  filter_eq_self.mpr fun f hf => decide_eq_true (h f hf)

theorem ofIdentifier_eq_nil {id : UInt32}
    (h : ∀ f ∈ fs, f.identifier ≠ id) : ofIdentifier id fs = [] :=
  filter_eq_nil_iff.mpr fun f hf => by simpa using h f hf

theorem ofIdentifier_flatten {messages : List (List Fragment)}
    (hm : ∀ m ∈ messages, Fragmented m)
    (hd : messages.Pairwise fun m n => ∀ f ∈ m, ∀ g ∈ n, f.identifier ≠ g.identifier)
    {m : List Fragment} (hmem : m ∈ messages) (hf : f ∈ m) :
    ofIdentifier f.identifier messages.flatten = m := by
  induction messages with
  | nil => cases hmem
  | cons n ns ih =>
    obtain ⟨hn, hns⟩ := forall_mem_cons.mp hm
    obtain ⟨hfirst, hrest⟩ := pairwise_cons.mp hd
    have hsplit : ofIdentifier f.identifier (n :: ns).flatten =
        ofIdentifier f.identifier n ++ ofIdentifier f.identifier ns.flatten :=
      filter_append ..
    rw [hsplit]
    rcases mem_cons.mp hmem with rfl | hin
    · have hothers : ofIdentifier f.identifier ns.flatten = [] := by
        refine ofIdentifier_eq_nil fun g hg => ?_
        obtain ⟨l, hl, hgl⟩ := mem_flatten.mp hg
        exact (hfirst l hl f hf g hgl).symm
      rw [hothers, append_nil, ofIdentifier_eq_self fun g hg => hn.identifier g hg f hf]
    · rw [ofIdentifier_eq_nil fun g hg => hfirst m hin g hg f hf, nil_append]
      exact ih hns hrest hin

theorem Interleaving.perm_message {arrivals : List Fragment}
    (h : Interleaving arrivals messages) (hm : m ∈ messages)
    (hf : f ∈ m) : (ofIdentifier f.identifier arrivals).Perm m := by
  have hfilter := h.perm.filter fun g => g.identifier = f.identifier
  rwa [show messages.flatten.filter _ = m from
    ofIdentifier_flatten h.fragmented h.distinct hm hf] at hfilter

structure Tracks (arrived : List Fragment) (c : Connection) : Prop where
  isOpen : c.closed = false
  entries : ∀ id, c.fragments id = kept (ofIdentifier id arrived)

section
variable (process : List UInt8 → Fragment → Except Error Unit)

section
variable {arrivals pre post : List Fragment} {f : Fragment} {messages : List (List Fragment)}
  {m : List Fragment} {c : Connection} (h : Interleaving arrivals messages)
include h

theorem Interleaving.receive (hsplit : arrivals = pre ++ f :: post) (hm : m ∈ messages)
    (hf : f ∈ m) (hc : Tracks pre c) :
    receive process c f =
      { c with
        fragments := update c.fragments f.identifier
          (kept (ofIdentifier f.identifier (pre ++ [f])))
        processed := c.processed ++
          if ofIdentifier f.identifier post = [] then handed m else []
        closed := (ofIdentifier f.identifier post).isEmpty && !accepted process m } := by
  have hall : ofIdentifier f.identifier arrivals =
      ofIdentifier f.identifier pre ++ f :: ofIdentifier f.identifier post := by
    simp [ofIdentifier, hsplit]
  have hpart : Part (ofIdentifier f.identifier pre) f (ofIdentifier f.identifier post) m :=
    ⟨h.fragmented m hm, hall ▸ h.perm_message hm hf, hall ▸ h.first m hm f hf⟩
  have hone : ofIdentifier f.identifier (pre ++ [f]) = ofIdentifier f.identifier pre ++ [f] := by
    simp [ofIdentifier]
  rw [hone]
  exact receive_part process hc.isOpen hpart (hc.entries f.identifier)

theorem Interleaving.mem_of_later (hsplit : arrivals = pre ++ f :: post) (hm : m ∈ messages)
    (hf : f ∈ m) (hlater : ofIdentifier f.identifier post = []) : ∀ g ∈ m, g ∈ pre ++ [f] := by
  intro g hg
  have hin := (h.perm_message hm hf).mem_iff.mpr hg
  rw [hsplit, append_cons, ofIdentifier, filter_append] at hin
  rw [ofIdentifier] at hlater
  rw [hlater, append_nil] at hin
  exact mem_of_mem_filter hin

theorem Interleaving.tracks (pre : List Fragment) :
    ∀ post, arrivals = pre ++ post →
      (∀ m ∈ messages, (∀ g ∈ m, g ∈ pre) → accepted process m = true) →
      Tracks pre (pre.foldl (Dtx.receive process) {}) := by
  induction pre using reverseRecOn with
  | nil => exact fun _ _ _ => ⟨rfl, fun _ => rfl⟩
  | append_singleton pre f ih =>
    intro post hsplit haccepted
    rw [append_assoc] at hsplit
    obtain ⟨m, hm, hf⟩ := mem_flatten.mp ((h.perm.mem_iff (a := f)).mp (by simp [hsplit]))
    have hbefore := ih _ hsplit fun n hn hpre =>
      haccepted n hn fun g hg => mem_append_left _ (hpre g hg)
    rw [foldl_concat, h.receive process hsplit hm hf hbefore]
    refine ⟨?_, fun id => ?_⟩
    · by_cases hlater : ofIdentifier f.identifier post = []
      · simp [haccepted m hm (h.mem_of_later hsplit hm hf hlater)]
      · simp [hlater]
    · by_cases hid : id = f.identifier
      · simp [hid]
      · simp [hbefore.entries, ofIdentifier, hid, Ne.symm hid]

end

/-- **Reassembly.** In an interleaving of messages, a fragment that is the last of its message
has the message handed over, with the bytes in the order of the indices. Any other fragment has
nothing handed over. This holds while no earlier message was rejected. For any input at all the
sizes are those of the entries, and no copy leaves the message. -/
theorem messages_reassembled :
    (∀ (input : List UInt8) (arrivals : List Fragment) (messages : List (List Fragment)),
      Reads input arrivals → Interleaving arrivals messages →
      ∀ pre f post, arrivals = pre ++ f :: post →
      (∀ m ∈ messages, (∀ g ∈ m, g ∈ pre) → accepted process m = true) →
      ∀ first rest, first :: rest ∈ messages → f ∈ first :: rest →
        (processIncomingFragments process (pre.length + 1) {} input).processed =
          (processIncomingFragments process pre.length {} input).processed ++
            if ∀ g ∈ post, g.identifier ≠ f.identifier then
              [(payload (first :: rest),
                { first with dataSize := .ofNat (total (first :: rest)) })]
            else []) ∧
    ∀ (n : Nat) (input : List UInt8),
      (∀ id entries, (processIncomingFragments process n {} input).fragments id = some entries →
        ∃ first rest, entries = first :: rest ∧ first.dataSize.toNat = total entries) ∧
      (processIncomingFragments process n {} input).outOfBounds = false := by
  refine ⟨fun input arrivals messages hreads h pre f post hsplit haccepted first rest hm hf => ?_,
    fun n input => ?_⟩
  · have htracks := h.tracks process pre (f :: post) hsplit haccepted
    have hlater : ofIdentifier f.identifier post = [] ↔
        ∀ g ∈ post, g.identifier ≠ f.identifier := by
      simp [ofIdentifier, filter_eq_nil_iff]
    subst hsplit
    have hbefore := processIncomingFragments_of_reads process hreads.left {}
    rw [append_cons] at hreads
    have hafter := processIncomingFragments_of_reads process hreads.left {}
    rw [length_append, length_singleton, foldl_concat,
      h.receive process rfl hm hf htracks] at hafter
    rw [hafter, hbefore]
    simp only [hlater]
    rfl
  · have hsized := sized_processIncomingFragments process n input sized_init
    exact ⟨hsized.counted, hsized.inside⟩

end

def halfOf (identifier : UInt32) (index : UInt16) (bytes : Option (List UInt8)) : Fragment where
  index := index
  count := 2
  dataSize := .ofNat (bytes.getD []).length
  identifier := identifier
  conversationIndex := 0
  channelCode := 0
  flags := 0
  bytes := bytes

def wholeOf (identifier : UInt32) (bytes : List UInt8) : List Fragment :=
  [halfOf identifier 0 none, halfOf identifier 1 (some bytes)]

def twoMessages (bytes bytes' : List UInt8) : List Fragment :=
  [halfOf 1 0 none, halfOf 2 0 none, halfOf 1 1 (some bytes), halfOf 2 1 (some bytes')]

theorem wellRead_first (identifier : UInt32) : (halfOf identifier 0 none).WellRead :=
  ⟨fun h => absurd h (by simp [halfOf]), fun _ => rfl⟩

theorem wellRead_second (identifier : UInt32) (hpos : 0 < bytes.length)
    (hle : bytes.length ≤ maxFragmentSize) : (halfOf identifier 1 (some bytes)).WellRead := by
  have hmax : maxFragmentSize < size := by decide
  have hsize : (ofNat bytes.length).toNat = bytes.length :=
    toNat_ofNat_of_lt' (by omega)
  exact ⟨fun _ => ⟨bytes, rfl, hsize.symm, hpos, hle⟩, fun h => absurd (.inr (by simp [halfOf])) h⟩

theorem fragmented_wholeOf (identifier : UInt32)
    (hle : bytes.length ≤ maxMessageSize) : Fragmented (wholeOf identifier bytes) where
  several := le_rfl
  indexed := ⟨rfl, rfl, trivial⟩
  count := by simp [wholeOf, halfOf]
  identifier := by simp [wholeOf, halfOf]
  size := by simpa [wholeOf, halfOf, Fragment.data] using hle

theorem interleaving_twoMessages (h : bytes.length ≤ maxMessageSize)
    (h' : bytes'.length ≤ maxMessageSize) :
    Interleaving (twoMessages bytes bytes') [wholeOf 1 bytes, wholeOf 2 bytes'] where
  fragmented := by simp [fragmented_wholeOf, h, h']
  distinct := by simp [wholeOf, halfOf]
  perm := .cons _ (.swap _ _ _)
  first := by simp [wholeOf, twoMessages, halfOf, ofIdentifier]

theorem reads_twoMessages (hpos : 0 < bytes.length)
    (hle : bytes.length ≤ maxFragmentSize) (hpos' : 0 < bytes'.length)
    (hle' : bytes'.length ≤ maxFragmentSize) :
    Reads ((twoMessages bytes bytes').flatMap Fragment.wire) (twoMessages bytes bytes') := by
  apply reads_wire
  simp [twoMessages, wellRead_first, wellRead_second, *]

/-- A message of one byte is malformed. The loop ends with it, and the other message, which is
complete with the fourth fragment, is not handed over. -/
theorem malformedMessage_ends_loop :
    Reads ((twoMessages [0] (.replicate 16 0)).flatMap Fragment.wire)
      (twoMessages [0] (.replicate 16 0)) ∧
    Interleaving (twoMessages [0] (.replicate 16 0)) [wholeOf 1 [0], wholeOf 2 (.replicate 16 0)] ∧
    (processIncomingFragments (processWith [] fun _ => .ok ()) 4 {}
      ((twoMessages [0] (.replicate 16 0)).flatMap Fragment.wire)).processed.map fst =
        [payload (wholeOf 1 [0])] := by
  have hreads := @reads_twoMessages [0] (.replicate 16 0) (by decide) (by decide) (by decide)
    (by decide)
  have hrun := processIncomingFragments_of_reads (processWith [] fun _ => .ok ()) hreads {}
  refine ⟨hreads, interleaving_twoMessages (by decide) (by decide), ?_⟩
  exact (congrArg (fun c : Connection => c.processed.map fst) hrun).trans (by decide)

/-- The third fragment has its message handed over when all are well formed. -/
theorem messages_reassembled_two :
    (processIncomingFragments (processWith [] fun _ => .ok ()) 3 {}
      ((twoMessages (.replicate 16 0) (.replicate 16 0)).flatMap Fragment.wire)).processed =
    (processIncomingFragments (processWith [] fun _ => .ok ()) 2 {}
      ((twoMessages (.replicate 16 0) (.replicate 16 0)).flatMap Fragment.wire)).processed ++
        if ∀ g ∈ [halfOf 2 1 (some (.replicate 16 0))], g.identifier ≠ 1 then
          [(payload (wholeOf 1 (.replicate 16 0)), { halfOf 1 0 none with
            dataSize := .ofNat (total (wholeOf 1 (.replicate 16 0))) })]
        else [] :=
  (messages_reassembled (processWith [] fun _ => .ok ())).1 _ _ _
    (reads_twoMessages (by decide) (by decide) (by decide) (by decide))
    (interleaving_twoMessages (by decide) (by decide))
    [halfOf 1 0 none, halfOf 2 0 none] (halfOf 1 1 (some (.replicate 16 0)))
    [halfOf 2 1 (some (.replicate 16 0))] rfl
    (by simp [wholeOf, halfOf]) _ _ mem_cons_self (by simp)

end FridaCore.Fruity.Dtx
