import FridaCore.Fruity.Dtx

/-!
# DTX fragments

What the loop of `process_incoming_fragments` keeps between two fragments, for any input: the
first entry of a message counts the bytes of all its entries, so the copies stay inside the
message. A fragment that could have been read is read back from its bytes.
-/

namespace FridaCore.Fruity.Dtx

open List Option Function

def Fragment.data (f : Fragment) : List UInt8 := f.bytes.getD []

def payload (fs : List Fragment) : List UInt8 := fs.flatMap Fragment.data

def total (fs : List Fragment) : Nat := (payload fs).length

@[simp] theorem total_nil : total [] = 0 := rfl

@[simp] theorem total_cons (f : Fragment) (fs : List Fragment) :
    total (f :: fs) = f.data.length + total fs := by
  simp [total, payload]

@[simp] theorem total_append (fs gs : List Fragment) : total (fs ++ gs) = total fs + total gs := by
  simp [total, payload]

theorem total_perm (h : fs.Perm gs) : total fs = total gs :=
  (h.flatMap_right Fragment.data).length_eq

/-- What `read_fragment` makes sure of. -/
structure Fragment.WellRead (f : Fragment) : Prop where
  body : f.count = 1 ∨ f.index ≠ 0 → ∃ bytes, f.bytes = some bytes ∧
    bytes.length = f.dataSize.toNat ∧ 0 < bytes.length ∧ bytes.length ≤ maxFragmentSize
  first : ¬ (f.count = 1 ∨ f.index ≠ 0) → f.bytes = none

theorem Fragment.WellRead.length_le {f : Fragment} (h : f.WellRead) :
    f.data.length ≤ maxFragmentSize := by
  by_cases hb : f.count = 1 ∨ f.index ≠ 0
  · obtain ⟨bytes, hf, -, -, hle⟩ := h.body hb
    simpa [Fragment.data, hf] using hle
  · simp [Fragment.data, h.first hb]

theorem Fragment.data_of_some {f : Fragment} (h : f.bytes = some l) : f.data = l := by
  simp [data, h]

theorem Fragment.data_of_none {f : Fragment} (h : f.bytes = none) : f.data = [] := by
  simp [data, h]

theorem copyAt_of_le (message bytes : List UInt8) (offset : Nat)
    (h : offset + bytes.length ≤ message.length) :
    copyAt message offset bytes =
      some (message.take offset ++ bytes ++ message.drop (offset + bytes.length)) :=
  if_pos h

theorem length_copyAt
    (h : copyAt message offset bytes = some copied) : copied.length = message.length := by
  unfold copyAt at h
  split at h
  · cases h
    simp only [length_append, length_take, length_drop]
    omega
  · cases h

theorem copyFragments_ne_outOfBounds :
    ∀ {i offset : Nat} {message : List UInt8}, offset + total fs ≤ message.length →
      copyFragments fs i offset message ≠ .outOfBounds := by
  induction fs with
  | nil => intro i offset message _; simp [copyFragments]
  | cons f fs ih =>
    intro i offset message hroom
    rw [total_cons] at hroom
    unfold copyFragments
    split
    · simp
    · cases hb : f.bytes with
      | none => exact ih (by omega)
      | some bytes =>
        rw [Fragment.data_of_some hb] at hroom
        have hcopy := copyAt_of_le message bytes offset (by omega)
        simp only [hcopy]
        exact ih (by rw [length_copyAt hcopy]; omega)

theorem assemble_ne_outOfBounds (entries : List Fragment) :
    assemble entries (total entries) ≠ .outOfBounds := by
  apply copyFragments_ne_outOfBounds
  rw [total_perm (perm_insertionSort _ entries)]
  simp

/-- Fragments whose indices count from `i`. -/
def IndexedFrom (i : Nat) : List Fragment → Prop
  | [] => True
  | f :: fs => f.index.toNat = i ∧ IndexedFrom (i + 1) fs

theorem copyFragments_indexed :
    ∀ {i offset : Nat} {message : List UInt8}, IndexedFrom i fs →
      offset + total fs ≤ message.length →
      copyFragments fs i offset message =
        .message (message.take offset ++ payload fs ++ message.drop (offset + total fs)) := by
  induction fs with
  | nil => intro i offset message _ _; simp [copyFragments, payload]
  | cons f fs ih =>
    intro i offset message hi hroom
    obtain ⟨hindex, hrest⟩ := hi
    rw [total_cons] at hroom ⊢
    have hpayload : payload (f :: fs) = f.data ++ payload fs := rfl
    unfold copyFragments
    rw [if_neg (not_not_intro hindex), hpayload]
    cases hb : f.bytes with
    | none =>
      simpa [Fragment.data_of_none hb] using ih hrest (by omega)
    | some bytes =>
      rw [Fragment.data_of_some hb] at hroom ⊢
      have hcopy := copyAt_of_le message bytes offset (by omega)
      simp only [hcopy]
      rw [ih hrest (by rw [length_copyAt hcopy]; omega)]
      -- the copy so far is what is left of the place where the next one goes
      have hleft : (message.take offset ++ bytes).length = offset + bytes.length := by
        simp only [length_append, length_take]
        omega
      rw [take_append_of_le_length (by omega), ← hleft, take_length,
        ← drop_drop, drop_left, hleft, drop_drop]
      simp [Nat.add_assoc]

theorem readHeader_bytes (h : readHeader input = .ok (f, rest)) : f.bytes = none := by
  iterate 13 obtain ⟨_, _, -, h⟩ := reading_bind_eq_ok h
  cases h
  rfl

theorem readBody_wellRead (hf : f.bytes = none)
    (h : readBody f input = .ok (g, rest)) : g.WellRead := by
  unfold readBody at h
  by_cases hb : f.count = 1 ∨ f.index ≠ 0
  · rw [if_pos hb] at h
    obtain ⟨_, _, hfirst, hrest⟩ := reading_bind_eq_ok h
    obtain ⟨hzero, rfl⟩ := failIf_eq_ok hfirst
    obtain ⟨_, _, hsecond, hlast⟩ := reading_bind_eq_ok hrest
    obtain ⟨hbig, rfl⟩ := failIf_eq_ok hsecond
    obtain ⟨_, _, hwait, hread⟩ := reading_bind_eq_ok hlast
    obtain ⟨hthere, rfl⟩ := prepareToRead_eq_ok hwait
    cases hread
    have hlength := length_take_of_le hthere
    have hpos : f.dataSize.toNat ≠ 0 := fun hz => hzero (UInt32.toNat_inj.mp hz)
    exact ⟨fun _ => ⟨_, rfl, hlength, by omega, by omega⟩, fun hn => absurd hb hn⟩
  · rw [if_neg hb] at h
    cases h
    exact ⟨fun hp => absurd hp hb, fun _ => hf⟩

theorem readFragment_wellRead (h : readFragment input = .ok (f, rest)) : f.WellRead := by
  obtain ⟨g, mid, hheader, hbody⟩ := reading_bind_eq_ok h
  exact readBody_wellRead (readHeader_bytes hheader) hbody

def Counted (entries : List Fragment) : Prop :=
  ∃ first rest, entries = first :: rest ∧ first.dataSize.toNat = total entries

/-- What the loop keeps for any input. The maximum is only passed when it ends. -/
structure Sized (c : Connection) : Prop where
  counted : ∀ id entries, c.fragments id = some entries → Counted entries
  bounded : c.closed = false →
    ∀ id entries, c.fragments id = some entries → total entries ≤ maxMessageSize
  inside : c.outOfBounds = false

theorem sized_init : Sized {} where
  counted := by rintro id entries ⟨⟩
  bounded := by rintro _ id entries ⟨⟩
  inside := rfl

theorem toNat_add_length (h : size.toNat + n < 2 ^ 32) :
    (size + UInt32.ofNat n).toNat = size.toNat + n := by
  have hn : (UInt32.ofNat n).toNat = n := UInt32.toNat_ofNat_of_lt' (by show _ < 2 ^ 32; omega)
  rw [UInt32.toNat_add, hn]
  exact Nat.mod_eq_of_lt h

@[simp] theorem total_addSize (f : Fragment) (fs : List Fragment) :
    total (addSize f fs) = total fs := by
  cases fs <;> rfl

theorem addEntry_none (h : addEntry f none = some entries) :
    entries = addSize f [{ f with dataSize := 0 }] := by
  by_cases hi : f.index ≠ 0
  · simp [addEntry, hi] at h
  · simpa [addEntry, hi] using h.symm

theorem total_addEntry (h : addEntry f kept = some entries) :
    total entries = total (kept.getD []) + f.data.length := by
  cases kept with
  | none =>
    rw [addEntry_none h, total_addSize, total_cons]
    exact Nat.add_comm _ _
  | some old =>
    simp only [addEntry, some.injEq] at h
    simp [← h]

/-- One more entry is counted, with no more than a fragment above the maximum. -/
theorem counted_addEntry (hf : f.data.length ≤ maxFragmentSize)
    (hkept : ∀ entries, kept = some entries → Counted entries ∧ total entries ≤ maxMessageSize)
    (h : addEntry f kept = some entries) : Counted entries := by
  have hsmall : maxMessageSize + maxFragmentSize < 2 ^ 32 := by decide
  cases kept with
  | none =>
    cases addEntry_none h
    refine ⟨_, _, rfl, ?_⟩
    rw [total_addSize, total_cons, total_nil]
    show (0 + UInt32.ofNat f.data.length).toNat = f.data.length + 0
    have hzero : (0 : UInt32).toNat = 0 := rfl
    rw [toNat_add_length (by omega), hzero]
    omega
  | some old =>
    obtain ⟨⟨first, rest, rfl, hcount⟩, hle⟩ := hkept old rfl
    simp only [addEntry, cons_append, addSize, some.injEq] at h
    subst h
    refine ⟨_, _, rfl, ?_⟩
    rw [total_cons, total_append, total_cons, total_nil]
    show (first.dataSize + UInt32.ofNat f.data.length).toNat =
      first.data.length + (total rest + (f.data.length + 0))
    rw [toNat_add_length (by omega), hcount, total_cons]
    omega

section
variable (process : List UInt8 → Fragment → Except Error Unit)

/-- What holds of the entries of every message still does when those of one change. -/
theorem forall_update {P : List Fragment → Prop} (id : UInt32) (hP : ∀ l, e = some l → P l)
    (h : ∀ i l, fragments i = some l → P l) : ∀ i l, update fragments id e i = some l → P l :=
  (forall_update_iff fragments fun _ e => ∀ l, e = some l → P l).mpr ⟨hP, fun i _ => h i⟩

theorem sized_handOver
    (h : Sized c) (hopen : c.closed = false) : Sized (handOver process c message f) where
  __ := h
  bounded _ := h.bounded hopen

theorem sized_unset {id : UInt32} (h : Sized c) :
    Sized { c with fragments := update c.fragments id none } where
  __ := h
  counted := forall_update id (by simp) h.counted
  bounded hopen := forall_update id (by simp) (h.bounded hopen)

theorem sized_receive (h : Sized c)
    (hf : f.data.length ≤ maxFragmentSize) : Sized (receive process c f) := by
  unfold receive
  split
  · exact h
  have hopen : c.closed = false := by simpa using ‹¬ c.closed = true›
  split
  · exact sized_handOver process h hopen
  split
  · exact ⟨h.counted, fun hc => (by cases hc), h.inside⟩
  · exact h
  next first rest hentry =>
    have hcounted : Counted (first :: rest) :=
      counted_addEntry hf (fun entries hk => ⟨h.counted _ _ hk, h.bounded hopen _ _ hk⟩) hentry
    have hsize : first.dataSize.toNat = total (first :: rest) := by
      obtain ⟨_, _, heq, hsize⟩ := hcounted
      cases heq
      exact hsize
    have hstored := forall_update (e := some (first :: rest)) f.identifier
      (by rintro _ ⟨⟩; exact hcounted) h.counted
    split
    · exact ⟨hstored, fun hc => (by cases hc), h.inside⟩
    split
    · have hnever := assemble_ne_outOfBounds (first :: rest)
      rw [← hsize] at hnever
      split
      · exact ⟨hstored, fun hc => (by cases hc), h.inside⟩
      · exact absurd ‹_› hnever
      · exact sized_handOver process (sized_unset h) hopen
    · refine ⟨hstored, fun _ => forall_update f.identifier ?_ (h.bounded hopen), h.inside⟩
      rintro _ ⟨⟩
      -- a fragment without bytes is not compared with the maximum, and adds nothing
      cases hb : f.bytes with
      | some bytes =>
        have hmax : ¬ (f.bytes.isSome ∧ first.dataSize.toNat > maxMessageSize) := ‹_›
        simp only [hb, isSome_some, true_and] at hmax
        omega
      | none =>
        rw [total_addEntry hentry, Fragment.data_of_none hb]
        cases hk : c.fragments f.identifier with
        | none => exact Nat.zero_le _
        | some old => exact h.bounded hopen _ _ hk

theorem sized_close (h : Sized c) : Sized { c with closed := true } where
  __ := h
  bounded hc := by cases hc

theorem sized_processIncomingFragments (n : Nat) {c : Connection} (input : List UInt8)
    (h : Sized c) : Sized (processIncomingFragments process n c input) := by
  induction n generalizing c input with
  | zero => exact h
  | succ n ih =>
    unfold processIncomingFragments
    cases hr : readFragment input with
    | error e => exact sized_close h
    | ok read =>
      obtain ⟨f, rest⟩ := read
      have hstep := sized_receive process h (readFragment_wellRead hr).length_le
      dsimp only
      split
      · exact hstep
      · exact ih rest hstep

end

def Fragment.wire (f : Fragment) : List UInt8 :=
  leBytes 4 fragmentMagic ++ leBytes 4 32 ++ leBytes 2 f.index.toNat ++ leBytes 2 f.count.toNat ++
    leBytes 4 f.dataSize.toNat ++ leBytes 4 f.identifier.toNat ++
    leBytes 4 f.conversationIndex.toNat ++ leBytes 4 f.channelCode.toUInt32.toNat ++
    leBytes 4 f.flags.toNat ++ f.data

theorem ofNat_toNat_mod_32 (x : UInt32) : UInt32.ofNat (x.toNat % 256 ^ 4) = x := by
  have hlt : x.toNat < 256 ^ 4 := x.toNat_lt
  rw [Nat.mod_eq_of_lt hlt, UInt32.ofNat_toNat]

theorem ofNat_toNat_mod_16 (x : UInt16) : UInt16.ofNat (x.toNat % 256 ^ 2) = x := by
  have hlt : x.toNat < 256 ^ 2 := x.toNat_lt
  rw [Nat.mod_eq_of_lt hlt, UInt16.ofNat_toNat]

theorem readHeader_wire (f : Fragment) (rest : List UInt8) :
    readHeader (f.wire ++ rest) = .ok ({ f with bytes := none }, f.data ++ rest) := by
  have hlong : 32 ≤ (f.wire ++ rest).length := by
    simp only [Fragment.wire, length_append, length_leBytes]
    omega
  rw [readHeader, reading_bind_of_ok (prepareToRead_of_le hlong)]
  simp only [Fragment.wire, append_assoc]
  rw [reading_bind_of_ok (readNumber_append ..), reading_bind_of_ok (failIf_of_not (by decide) _),
    reading_bind_of_ok (readNumber_append ..), reading_bind_of_ok (failIf_of_not (by decide) _)]
  iterate 7 rw [reading_bind_of_ok (readNumber_append ..)]
  simp only [ofNat_toNat_mod_32, ofNat_toNat_mod_16]
  rfl

theorem readFragment_wire (h : f.WellRead) (rest : List UInt8) :
    readFragment (f.wire ++ rest) = .ok (f, rest) := by
  rw [readFragment, reading_bind_of_ok (readHeader_wire f rest), readBody]
  by_cases hb : f.count = 1 ∨ f.index ≠ 0
  · obtain ⟨bytes, hbytes, hlength, hpos, hle⟩ := h.body hb
    have hzero : ¬ f.dataSize = 0 := by
      intro hz
      rw [hz] at hlength
      exact absurd hlength (Nat.ne_of_gt hpos)
    have hbig : ¬ f.dataSize.toNat > maxFragmentSize := by omega
    have hdata := Fragment.data_of_some hbytes
    have hthere : f.dataSize.toNat ≤ (f.data ++ rest).length := by
      rw [hdata, length_append]
      omega
    rw [if_pos hb, reading_bind_of_ok (failIf_of_not hzero _),
      reading_bind_of_ok (failIf_of_not hbig _),
      reading_bind_of_ok (prepareToRead_of_le hthere)]
    show Except.ok ({ f with bytes := some ((f.data ++ rest).take f.dataSize.toNat) },
      (f.data ++ rest).drop f.dataSize.toNat) = _
    rw [hdata, ← hlength, take_left, drop_left, ← hbytes]
  · have hbytes := h.first hb
    rw [if_neg hb, Fragment.data_of_none hbytes]
    show Except.ok ({ f with bytes := none }, rest) = _
    rw [← hbytes]

def Reads : (input : List UInt8) → (fs : List Fragment) → Prop
  | _, [] => True
  | input, f :: fs => ∃ rest, readFragment input = .ok (f, rest) ∧ Reads rest fs

theorem Reads.left (h : Reads input (fs ++ gs)) :
    Reads input fs := by
  induction fs generalizing input with
  | nil => trivial
  | cons f fs ih =>
    obtain ⟨rest, hread, hrest⟩ := h
    exact ⟨rest, hread, ih hrest⟩

theorem reads_wire (h : ∀ f ∈ fs, f.WellRead) :
    Reads (fs.flatMap Fragment.wire) fs := by
  induction fs with
  | nil => trivial
  | cons f fs ih =>
    obtain ⟨hf, hfs⟩ := forall_mem_cons.mp h
    exact ⟨_, readFragment_wire hf _, ih hfs⟩

section
variable (process : List UInt8 → Fragment → Except Error Unit)

theorem foldl_receive_of_closed (h : c.closed = true) (fs : List Fragment) :
    fs.foldl (receive process) c = c := by
  induction fs with
  | nil => rfl
  | cons f fs ih =>
    have hsame : receive process c f = c := by simp [receive, h]
    rw [foldl_cons, hsame]
    exact ih

/-- As many turns of the loop as there are fragments take them one after the other. -/
theorem processIncomingFragments_of_reads (h : Reads input fs) (c : Connection) :
    processIncomingFragments process fs.length c input = fs.foldl (receive process) c := by
  induction fs generalizing c input with
  | nil => rfl
  | cons f fs ih =>
    obtain ⟨rest, hread, hrest⟩ := h
    rw [length_cons, processIncomingFragments, hread]
    dsimp only
    by_cases hclosed : (receive process c f).closed = true
    · rw [if_pos hclosed, foldl_cons, foldl_receive_of_closed process hclosed]
    · rw [if_neg hclosed]
      exact ih hrest _

end

end FridaCore.Fruity.Dtx
