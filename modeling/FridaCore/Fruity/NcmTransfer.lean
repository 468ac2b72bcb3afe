import FridaCore.Fruity.NcmInput

/-!
# Transfers are read back as the datagrams in them

Offsets are worked out in one pass over the datagrams and written in another. What keeps
the areas of a transfer apart is that every datagram begins behind the end of the one
before it, and the first one behind the room that is reserved for the table.
-/

namespace FridaCore.Fruity.Ncm

open BufferBuilder

open List (append_assoc length_append length_cons)

variable {modulus remainder val : Nat}

/-- The result of `align`, for a modulus that is not zero. -/
def alignUp (val modulus remainder : Nat) : Nat :=
  if val % modulus ≠ remainder then val + modulus - val % modulus + remainder else val

theorem align_eq_ok (h : 0 < modulus) :
    align val modulus remainder = .ok (alignUp val modulus remainder) := by
  simp only [align, alignUp, Nat.ne_of_gt h, if_false]
  split <;> rfl

theorem le_alignUp (h : 0 < modulus) : val ≤ alignUp val modulus remainder := by
  have := Nat.mod_lt val h
  unfold alignUp
  split <;> omega

theorem alignUp_mod (hr : remainder < modulus) :
    alignUp val modulus remainder % modulus = remainder := by
  unfold alignUp
  split
  · have hdiv : val + modulus - val % modulus = modulus * (val / modulus + 1) := by
      have := Nat.div_add_mod val modulus
      rw [Nat.mul_add, Nat.mul_one]
      omega
    rw [hdiv, Nat.mul_add_mod, Nat.mod_eq_of_lt hr]
  · next heq => exact not_not.mp heq

def startAfter (p : LayoutParameters) (current : Nat) : Nat :=
  alignUp (current + TransferLayout.ethernetHeaderSize) p.datagramModulus p.datagramRemainder

inductive Placed (p : LayoutParameters) : Nat → List (Nat × Bytes) → Nat → Prop
  | nil (current : Nat) : Placed p current [] current
  | cons {current size : Nat} {datagram : Bytes} {rest : List (Nat × Bytes)} :
      startAfter p current + datagram.length ≤ 0xffff →
      startAfter p current + datagram.length ≤ p.maxTransferSize →
      Placed p (startAfter p current + datagram.length) rest size →
      Placed p current ((startAfter p current, datagram) :: rest) size

def Unfit (p : LayoutParameters) (current : Nat) (datagram : Bytes) : Prop :=
  0xffff < startAfter p current + datagram.length ∨
    p.maxTransferSize < startAfter p current + datagram.length

/-- What the loop of `compute` comes to. -/
structure PlacedFirst (p : LayoutParameters) (room current : Nat) (datagrams : List Bytes)
    (size : Nat) (offsets : List Nat) : Prop where
  le_room : offsets.length ≤ room
  le_length : offsets.length ≤ datagrams.length
  placed : Placed p current (offsets.zip (datagrams.take offsets.length)) size
  full : offsets.length < room → ∀ d ∈ datagrams[offsets.length]?, Unfit p size d

theorem place_eq_ok (p : LayoutParameters) (hmodulus : 0 < p.datagramModulus)
    (datagrams : List Bytes) (hsizes : ∀ d ∈ datagrams, d.length < 2 ^ 16) (maxDatagrams : Nat)
    (current : Nat) (before : List Nat) (hroom : before.length < maxDatagrams) :
    ∃ size offsets,
      TransferLayout.place p maxDatagrams current before datagrams = .ok (size, before ++ offsets) ∧
        PlacedFirst p (maxDatagrams - before.length) current datagrams size offsets := by
  induction datagrams generalizing current before with
  | nil =>
    refine ⟨current, [], by simp [TransferLayout.place], ?_⟩
    exact ⟨Nat.zero_le _, Nat.zero_le _, .nil current, by simp⟩
  | cons datagram rest ih =>
    have hlength : uint16 datagram.length = datagram.length :=
      Nat.mod_eq_of_lt (hsizes datagram List.mem_cons_self)
    have halign : align (current + TransferLayout.ethernetHeaderSize) p.datagramModulus
        p.datagramRemainder = .ok (startAfter p current) := align_eq_ok hmodulus
    by_cases hunfit : 0xffff < startAfter p current + datagram.length ∨
        p.maxTransferSize < startAfter p current + datagram.length
    · refine ⟨current, [], ?_, ⟨Nat.zero_le _, Nat.zero_le _, .nil current, ?_⟩⟩
      · simp [TransferLayout.place, halign, hlength, bind, Except.bind, hunfit, pure, Except.pure]
      · intro _ d hd
        cases hd
        exact hunfit
    · have hfits : startAfter p current + datagram.length ≤ 0xffff ∧
          startAfter p current + datagram.length ≤ p.maxTransferSize := by
        simpa [not_or] using hunfit
      have hstart : uint16 (startAfter p current) = startAfter p current :=
        Nat.mod_eq_of_lt (by omega)
      have hbody : TransferLayout.place p maxDatagrams current before (datagram :: rest) =
          if (before ++ [startAfter p current]).length = maxDatagrams then
            .ok (startAfter p current + datagram.length, before ++ [startAfter p current])
          else TransferLayout.place p maxDatagrams (startAfter p current + datagram.length)
            (before ++ [startAfter p current]) rest := by
        simp [TransferLayout.place, halign, hlength, bind, Except.bind, hunfit, pure, Except.pure,
          Nat.not_le.mpr hroom, hstart]
      rw [hbody]
      split
      · next hlast =>
        rw [length_append, List.length_singleton] at hlast
        refine ⟨_, [startAfter p current], rfl, ?_⟩
        have hone : maxDatagrams - before.length = 1 := by omega
        refine ⟨by simp [hone], by simp, ?_, by simp [hone]⟩
        exact .cons hfits.1 hfits.2 (.nil _)
      · next hmore =>
        rw [length_append, List.length_singleton] at hmore
        obtain ⟨size, offsets, hplace, hfirst⟩ :=
          ih (fun d hd => hsizes d (List.mem_cons_of_mem _ hd))
            (startAfter p current + datagram.length) (before ++ [startAfter p current])
            (by rw [length_append, List.length_singleton]; omega)
        rw [length_append, List.length_singleton] at hfirst
        refine ⟨size, startAfter p current :: offsets, by rw [hplace]; simp, ?_⟩
        obtain ⟨hle, hlen, hplaced, hfull⟩ := hfirst
        refine ⟨?_, ?_, ?_, ?_⟩
        · rw [length_cons]
          omega
        · rw [length_cons, length_cons]
          omega
        · simpa using Placed.cons hfits.1 hfits.2 hplaced
        · rw [length_cons]
          intro hlt
          exact hfull (by omega)

section
variable {p : LayoutParameters} {current size : Nat} {entries : List (Nat × Bytes)}

theorem lt_startAfter (h : 0 < p.datagramModulus) : current + 14 ≤ startAfter p current :=
  le_alignUp h

section
variable (h : Placed p current entries size)
include h

theorem Placed.le (hmodulus : 0 < p.datagramModulus) : current ≤ size := by
  induction h with
  | nil => exact Nat.le_refl _
  | @cons current size datagram rest _ _ _ ih =>
    have : current + 14 ≤ startAfter p current := lt_startAfter hmodulus
    omega

theorem Placed.size_le (hne : entries ≠ []) : size ≤ 0xffff ∧ size ≤ p.maxTransferSize := by
  induction h with
  | nil => exact absurd rfl hne
  | @cons current size datagram rest hshort hlimit hrest ih =>
    cases rest with
    | nil =>
      cases hrest
      exact ⟨hshort, hlimit⟩
    | cons => exact ih (by simp)

theorem Placed.bounds (hmodulus : 0 < p.datagramModulus) :
    ∀ e ∈ entries, current + 14 ≤ e.1 ∧ e.1 + e.2.length ≤ size := by
  induction h with
  | nil => simp
  | @cons current size datagram rest _ _ hrest ih =>
    have hstart : current + 14 ≤ startAfter p current := lt_startAfter hmodulus
    intro e he
    rcases List.mem_cons.mp he with rfl | he
    · exact ⟨hstart, hrest.le hmodulus⟩
    · obtain ⟨hlow, hhigh⟩ := ih e he
      exact ⟨by omega, hhigh⟩

theorem Placed.congruent (hr : p.datagramRemainder < p.datagramModulus) :
    ∀ e ∈ entries, e.1 % p.datagramModulus = p.datagramRemainder := by
  induction h with
  | nil => simp
  | cons _ _ _ ih =>
    intro e he
    rcases List.mem_cons.mp he with rfl | he
    · exact alignUp_mod hr
    · exact ih e he

theorem Placed.apart (hmodulus : 0 < p.datagramModulus) :
    entries.Pairwise fun a b => a.1 + a.2.length ≤ b.1 := by
  induction h with
  | nil => exact .nil
  | cons _ _ hrest ih =>
    refine .cons (fun e he => ?_) ih
    exact (Nat.le_add_right _ 14).trans (hrest.bounds hmodulus e he).1

end

def entryBytes (e : Nat × Bytes) : Bytes := leBytes 2 e.1 ++ leBytes 2 e.2.length

theorem appendEntries_ofBytes (entries : List (Nat × Bytes)) (bytes : Bytes) :
    appendEntries (.ofBytes bytes) entries = .ofBytes (bytes ++ entries.flatMap entryBytes) := by
  induction entries generalizing bytes with
  | nil => simp [appendEntries]
  | cons e entries ih =>
    have hstep : appendEntries (.ofBytes bytes) (e :: entries) =
        appendEntries (.ofBytes (bytes ++ entryBytes e)) entries := by
      simp [appendEntries, entryBytes]
    rw [hstep, ih]
    simp

theorem length_entries (entries : List (Nat × Bytes)) :
    (entries.flatMap entryBytes).length = 4 * entries.length := by
  induction entries with
  | nil => rfl
  | cons e entries ih =>
    simp [entryBytes]
    omega

/-- What has been written when the datagrams have: they are where they should be, behind
zeros, and nothing else has changed. -/
structure Written (bytes : Bytes) (current : Nat) (entries : List (Nat × Bytes)) (size : Nat)
    (tail : Bytes) : Prop where
  length : (bytes ++ tail).length = size
  zeros : ∃ rest, tail = List.replicate (current - bytes.length) 0 ++ rest
  datagrams : ∀ e ∈ entries, BytesAt (bytes ++ tail) e.1 e.2

theorem appendDatagrams_ofBytes (h : Placed p current entries size)
    (hmodulus : 0 < p.datagramModulus) (hne : entries ≠ []) (bytes : Bytes)
    (hbytes : bytes.length ≤ current) :
    ∃ tail, appendDatagrams (.ofBytes bytes) entries = .ofBytes (bytes ++ tail) ∧
      Written bytes current entries size tail := by
  induction h generalizing bytes with
  | nil => exact absurd rfl hne
  | @cons current size datagram rest _ _ hrest ih =>
    have hstart : current + 14 ≤ startAfter p current := lt_startAfter hmodulus
    let gap : Bytes := List.replicate (startAfter p current - bytes.length) 0
    have hgap : (bytes ++ gap).length = startAfter p current := by
      simp only [gap, length_append, List.length_replicate]
      omega
    have hstep : appendDatagrams (.ofBytes bytes) ((startAfter p current, datagram) :: rest) =
        appendDatagrams (.ofBytes (bytes ++ gap ++ datagram)) rest := by
      simp only [appendDatagrams, List.foldl_cons,
        seek_ofBytes bytes (show bytes.length ≤ startAfter p current by omega),
        appendData_ofBytes, gap]
    have hwritten : (bytes ++ gap ++ datagram).length = startAfter p current + datagram.length := by
      rw [length_append, hgap]
    have hzeros : ∃ more, gap = List.replicate (current - bytes.length) 0 ++ more := by
      refine ⟨List.replicate (startAfter p current - current) 0, ?_⟩
      have hsum : startAfter p current - bytes.length =
          current - bytes.length + (startAfter p current - current) := by omega
      rw [List.replicate_append_replicate, ← hsum]
    obtain ⟨more, hmore⟩ := hzeros
    have hdatagram : BytesAt (bytes ++ gap ++ datagram) (startAfter p current) datagram := by
      have := bytesAt_append (bytes ++ gap) datagram []
      rwa [List.append_nil, hgap] at this
    rw [hstep]
    cases rest with
    | nil =>
      cases hrest
      refine ⟨gap ++ datagram, by simp [appendDatagrams], ?_⟩
      refine ⟨by rw [← append_assoc, hwritten], ⟨more ++ datagram, by simp [hmore]⟩, ?_⟩
      intro e he
      obtain rfl := List.mem_singleton.mp he
      rwa [← append_assoc]
    | cons next rest =>
      obtain ⟨tail, happend, hlength, -, hdatagrams⟩ :=
        ih (by simp) (bytes ++ gap ++ datagram) (Nat.le_of_eq hwritten)
      refine ⟨gap ++ datagram ++ tail, by rw [happend]; simp, ?_⟩
      have hassoc : bytes ++ (gap ++ datagram ++ tail) = bytes ++ gap ++ datagram ++ tail := by simp
      refine ⟨by rw [hassoc, hlength], ⟨more ++ datagram ++ tail, by simp [hmore]⟩, ?_⟩
      intro e he
      rw [hassoc]
      rcases List.mem_cons.mp he with rfl | he
      · exact hdatagram.append (by rw [hwritten]; exact Nat.le_add_right _ _)
      · exact hdatagrams e he

end

theorem leBytes_two (n : Nat) : leBytes 2 n = [.ofNat n, .ofNat (n / 256)] := rfl

theorem leValue_two (h : n < 2 ^ 16) : leValue [.ofNat n, .ofNat (n / 256)] = n := by
  rw [← leBytes_two, leValue_leBytes]
  exact Nat.mod_eq_of_lt h

structure Legible (frame : Bytes) (e : Nat × Bytes) : Prop where
  index_pos : 0 < e.1
  index_lt : e.1 < 2 ^ 16
  length_pos : 0 < e.2.length
  length_lt : e.2.length < 2 ^ 16
  inside : e.1 ≤ frame.length

theorem readDatagrams_entries (frame more : Bytes) (entries : List (Nat × Bytes))
    (h : ∀ e ∈ entries, Legible frame e) :
    readDatagrams frame (entries.flatMap entryBytes ++ 0 :: 0 :: 0 :: 0 :: more) =
      .ok (entries.map fun e => readDatagram frame e.1 e.2.length) := by
  induction entries with
  | nil =>
    have hzero : leValue [0, 0] = 0 := rfl
    simp [readDatagrams, hzero]
  | cons e entries ih =>
    obtain ⟨hipos, hilt, hlpos, hllt, hinside⟩ := h e List.mem_cons_self
    have hrest := ih fun e he => h e (List.mem_cons_of_mem _ he)
    simp only [List.flatMap_cons, entryBytes, leBytes_two, List.cons_append, List.nil_append,
      readDatagrams, leValue_two hilt, leValue_two hllt]
    rw [if_neg (by omega), if_neg (by omega)]
    rw [hrest]
    rfl

structure Laid (frame : Bytes) (ndpOffset : Nat) (entries : List (Nat × Bytes)) : Prop where
  header : ∃ middle rest, frame = nthSignature ++ middle ++ leBytes 2 ndpOffset ++ rest ∧
    middle.length = 6
  table : ∃ size rest, frame.drop ndpOffset =
    ndpSignature ++ leBytes 2 size ++ leBytes 2 0 ++ entries.flatMap entryBytes ++
      0 :: 0 :: 0 :: 0 :: rest
  ndpOffset_lt : ndpOffset < 2 ^ 16
  ndpOffset_le : ndpOffset ≤ frame.length
  datagrams : ∀ e ∈ entries, BytesAt frame e.1 e.2
  legible : ∀ e ∈ entries, Legible frame e

section
variable {frame : Bytes} {ndpOffset : Nat} {entries : List (Nat × Bytes)}

section
variable (h : Laid frame ndpOffset entries)
include h

theorem Laid.readHeader : readHeader frame = .ok ndpOffset := by
  obtain ⟨middle, rest, rfl, hmiddle⟩ := h.header
  have hten : (nthSignature ++ middle).length = 10 := by
    rw [length_append, hmiddle]
    rfl
  have hdrop : (nthSignature ++ middle ++ leBytes 2 ndpOffset ++ rest).drop 10 =
      leBytes 2 ndpOffset ++ rest := by
    rw [append_assoc, List.drop_append_of_le_length (Nat.le_of_eq hten.symm),
      List.drop_eq_nil_of_le (Nat.le_of_eq hten), List.nil_append]
  have hsig : readSignature [0, 0, 0, 0] (nthSignature ++ middle ++ leBytes 2 ndpOffset ++ rest) =
      nthSignature := by
    rw [readSignature_eq rfl (by simp [nthSignature])]
    simp [nthSignature]
  simp only [Ncm.readHeader, hsig, ne_eq, not_true_eq_false, if_false, hdrop]
  simp only [leBytes_two, List.cons_append, leValue_two h.ndpOffset_lt]

theorem Laid.ndpAt :
    ndpAt frame ndpOffset =
      some (0, entries.map fun e => readDatagram frame e.1 e.2.length) := by
  obtain ⟨size, rest, htable⟩ := h.table
  have hsig : readSignature ndpSignature (frame.drop ndpOffset) = ndpSignature := by
    rw [readSignature_eq rfl (by simp [htable, ndpSignature]), htable]
    simp [ndpSignature]
  have hdrop : (frame.drop ndpOffset).drop 6 =
      0 :: 0 :: (entries.flatMap entryBytes ++ 0 :: 0 :: 0 :: 0 :: rest) := by
    rw [htable]
    simp [ndpSignature, leBytes_two]
  have hzero : leValue [0, 0] = 0 := rfl
  simp only [Ncm.ndpAt, readNdp, Nat.not_lt.mpr h.ndpOffset_le, if_false, hsig, ne_eq,
    not_true_eq_false, hdrop, readDatagrams_entries frame rest entries h.legible, Except.map, hzero]

theorem Laid.handleNcmFrame :
    ∃ fuel ds, handleNcmFrame fuel frame = some (.ok ds) ∧
      ds.map Datagram.bytes = entries.map Prod.snd := by
  have hwalk : Walk frame ndpOffset [ndpOffset] := .last h.ndpAt
  obtain ⟨fuel, hfuel⟩ := (handleNcmFrame_eq_ok frame _).mpr
    ⟨ndpOffset, [ndpOffset], h.readHeader, hwalk, rfl⟩
  refine ⟨fuel, _, hfuel, ?_⟩
  simp only [List.flatMap_singleton, datagramsAt, h.ndpAt, List.map_map]
  refine List.map_congr_left fun e he => ?_
  have htake := (h.datagrams e he).take
  simp only [Function.comp_apply, readDatagram, htake, Nat.sub_self, List.replicate_zero,
    List.append_nil]

end

end

/-- The room for the table, as `open` works it out. -/
def ndpFixedHeaderSize (slots alignment : Nat) : Except Fault Nat :=
  (align (8 + slots * 4 + 4) alignment 0).map uint16

structure Roomy (p : LayoutParameters) (slots : Nat) : Prop where
  alignment_pos : 0 < p.ndpAlignment
  modulus_pos : 0 < p.datagramModulus
  room : 8 + slots * 4 + 4 ≤ p.ndpFixedHeaderSize

def ndpOffset (p : LayoutParameters) : Nat := alignUp transferHeaderSize p.ndpAlignment 0

def dataOffset (p : LayoutParameters) : Nat := ndpOffset p + p.ndpFixedHeaderSize

def layoutOf (p : LayoutParameters) (size : Nat) (offsets : List Nat) : TransferLayout where
  size := uint16 size
  ndpHeaderOffset := uint16 (ndpOffset p)
  ndpHeaderSize := p.ndpFixedHeaderSize
  offsets

section
variable {p : LayoutParameters} {slots : Nat} {datagrams : List Bytes}

theorem compute_eq_ok (halignment : 0 < p.ndpAlignment) (hmodulus : 0 < p.datagramModulus)
    (hsizes : ∀ d ∈ datagrams, d.length < 2 ^ 16) (hroom : 0 < maxDatagrams) :
    ∃ size offsets, PlacedFirst p maxDatagrams (dataOffset p) datagrams size offsets ∧
      TransferLayout.compute datagrams maxDatagrams p = .ok (layoutOf p size offsets) := by
  obtain ⟨size, offsets, hplace, hfirst⟩ :=
    place_eq_ok p hmodulus datagrams hsizes maxDatagrams (dataOffset p) [] hroom
  refine ⟨size, offsets, hfirst, ?_⟩
  have halign : align transferHeaderSize p.ndpAlignment 0 = .ok (ndpOffset p) :=
    align_eq_ok halignment
  simp only [TransferLayout.compute, halign, bind, Except.bind]
  rw [← dataOffset, hplace]
  simp [pure, Except.pure, layoutOf]

def preamble (p : LayoutParameters) (size sequenceNumber : Nat) (entries : List (Nat × Bytes)) :
    Bytes :=
  nthSignature ++ leBytes 2 transferHeaderSize ++ leBytes 2 sequenceNumber ++ leBytes 2 size ++
    leBytes 2 (ndpOffset p) ++ List.replicate (ndpOffset p - transferHeaderSize) 0 ++
    ndpSignature ++ leBytes 2 p.ndpFixedHeaderSize ++ leBytes 2 0 ++ entries.flatMap entryBytes

theorem length_preamble (h : Roomy p slots) (size sequenceNumber : Nat)
    (entries : List (Nat × Bytes)) :
    (preamble p size sequenceNumber entries).length = ndpOffset p + 8 + 4 * entries.length := by
  have hoffset : transferHeaderSize ≤ ndpOffset p := le_alignUp h.alignment_pos
  simp only [preamble, length_append, length_leBytes, List.length_replicate, length_entries]
  simp only [nthSignature, ndpSignature, List.length_map, length_cons, List.length_nil,
    transferHeaderSize] at hoffset ⊢
  omega

/-- The areas of a transfer do not overlap: the header, the table with its end in the room
for it, and the datagrams. -/
structure Apart (layout : TransferLayout) (datagrams : List Bytes) : Prop where
  header : transferHeaderSize ≤ layout.ndpHeaderOffset
  table : 8 + 4 * datagrams.length + 4 ≤ layout.ndpHeaderSize
  behind : ∀ o ∈ layout.offsets, layout.ndpHeaderOffset + layout.ndpHeaderSize ≤ o
  apart : (layout.offsets.zip datagrams).Pairwise fun a b => a.1 + a.2.length ≤ b.1
  inside : ∀ e ∈ layout.offsets.zip datagrams, e.1 + e.2.length ≤ layout.size

theorem drop_preamble (h : Roomy p slots) (size sequenceNumber : Nat)
    (entries : List (Nat × Bytes)) (tail : Bytes) :
    (preamble p size sequenceNumber entries ++ tail).drop (ndpOffset p) =
      ndpSignature ++ leBytes 2 p.ndpFixedHeaderSize ++ leBytes 2 0 ++
        entries.flatMap entryBytes ++ tail := by
  have hoffset : transferHeaderSize ≤ ndpOffset p := le_alignUp h.alignment_pos
  have hlength : (nthSignature ++ leBytes 2 transferHeaderSize ++ leBytes 2 sequenceNumber ++
      leBytes 2 size ++ leBytes 2 (ndpOffset p) ++
      List.replicate (ndpOffset p - transferHeaderSize) 0).length = ndpOffset p := by
    simp only [length_append, length_leBytes, List.length_replicate]
    simp only [nthSignature, List.length_map, length_cons, List.length_nil,
      transferHeaderSize] at hoffset ⊢
    omega
  refine .trans ?_ (List.drop_left' hlength)
  simp [preamble]

theorem laid_preamble (h : Roomy p slots) (entries : List (Nat × Bytes))
    (hplaced : Placed p (dataOffset p) entries size) (hne : entries ≠ [])
    (hslots : entries.length ≤ slots) (hdatagrams : ∀ e ∈ entries, e.2 ≠ [])
    (hwritten : Written (preamble p size sequenceNumber entries) (dataOffset p) entries size tail) :
    Laid (preamble p size sequenceNumber entries ++ tail) (ndpOffset p) entries := by
  have hroom := h.room
  have hsize := hplaced.size_le hne
  have hdata : dataOffset p ≤ size := hplaced.le h.modulus_pos
  have hlength := length_preamble h size sequenceNumber entries
  have hoffset : ndpOffset p ≤ dataOffset p := Nat.le_add_right _ _
  constructor
  · refine ⟨leBytes 2 transferHeaderSize ++ leBytes 2 sequenceNumber ++ leBytes 2 size,
      List.replicate (ndpOffset p - transferHeaderSize) 0 ++ ndpSignature ++
        leBytes 2 p.ndpFixedHeaderSize ++ leBytes 2 0 ++ entries.flatMap entryBytes ++ tail, ?_, rfl⟩
    simp only [preamble, append_assoc]
  · obtain ⟨rest, hrest⟩ := hwritten.zeros
    obtain ⟨n, hn⟩ : ∃ n, dataOffset p - (preamble p size sequenceNumber entries).length =
        4 + n := by
      refine ⟨dataOffset p - (preamble p size sequenceNumber entries).length - 4, ?_⟩
      rw [hlength, dataOffset]
      omega
    refine ⟨p.ndpFixedHeaderSize, List.replicate n 0 ++ rest, ?_⟩
    rw [drop_preamble h, hrest, hn, ← List.replicate_append_replicate]
    simp [List.replicate]
  · omega
  · rw [hwritten.length]
    omega
  · exact hwritten.datagrams
  · intro e he
    obtain ⟨hlow, hhigh⟩ := hplaced.bounds h.modulus_pos e he
    have hpos : 0 < e.2.length := List.length_pos_iff.mpr (hdatagrams e he)
    refine ⟨by omega, by omega, hpos, by omega, ?_⟩
    rw [hwritten.length]
    omega

/-- What is asked of a transfer with a layout for some of the datagrams in a queue. -/
structure Transfers (queue : List Bytes) (modulus remainder limit : Nat)
    (layout : TransferLayout) (transfer : Bytes) : Prop where
  readBack : ∃ fuel ds, handleNcmFrame fuel transfer = some (.ok ds) ∧
    ds.map Datagram.bytes = queue.take layout.offsets.length
  congruent : ∀ o ∈ layout.offsets, o % modulus = remainder
  apart : Apart layout (queue.take layout.offsets.length)
  length : transfer.length = layout.size
  withinLimit : layout.size ≤ limit

def reached (p : LayoutParameters) (layout : TransferLayout) : Nat :=
  if layout.offsets = [] then dataOffset p else layout.size

theorem le_ndpOffset (p : LayoutParameters) :
    p.ndpAlignment ≤ transferHeaderSize ∨ p.ndpAlignment = ndpOffset p := by
  rcases Nat.lt_or_ge transferHeaderSize p.ndpAlignment with hlt | hge
  · right
    have hmod : transferHeaderSize % p.ndpAlignment = transferHeaderSize := Nat.mod_eq_of_lt hlt
    have hne : transferHeaderSize ≠ 0 := by decide
    simp only [ndpOffset, alignUp, hmod, ne_eq, hne, not_false_eq_true, if_true]
    omega
  · exact .inl hge

theorem roomy_of_reached (halignment : 0 < p.ndpAlignment) (hmodulus : 0 < p.datagramModulus)
    (hslots : slots ≤ 21)
    (hfixed : p.ndpFixedHeaderSize = uint16 (alignUp (8 + slots * 4 + 4) p.ndpAlignment 0))
    (h : dataOffset p ≤ 16384) : Roomy p slots := by
  refine ⟨halignment, hmodulus, ?_⟩
  have hle : 8 + slots * 4 + 4 ≤ alignUp (8 + slots * 4 + 4) p.ndpAlignment 0 :=
    le_alignUp halignment
  have hsmall : alignUp (8 + slots * 4 + 4) p.ndpAlignment 0 < 2 ^ 16 := by
    have hoffset : ndpOffset p ≤ dataOffset p := Nat.le_add_right _ _
    have halign : p.ndpAlignment ≤ 16384 := by
      rcases le_ndpOffset p with hsmall | heq
      · exact hsmall.trans (by decide)
      · omega
    unfold alignUp
    split <;> omega
  rw [hfixed, uint16, Nat.mod_eq_of_lt hsmall]
  exact hle

theorem map_fst_zip_take {offsets : List Nat} {queue : List Bytes}
    (h : offsets.length ≤ queue.length) :
    (offsets.zip (queue.take offsets.length)).map Prod.fst = offsets := by
  rw [List.map_fst_zip]
  simp [h]

theorem map_snd_zip_take {offsets : List Nat} {queue : List Bytes} :
    (offsets.zip (queue.take offsets.length)).map Prod.snd = queue.take offsets.length := by
  rw [List.map_snd_zip]
  simp

theorem PlacedFirst.zip_ne_nil
    (h : PlacedFirst p room current queue size offsets) (hne : offsets ≠ []) :
    offsets.zip (queue.take offsets.length) ≠ [] := by
  have hlength : (offsets.zip (queue.take offsets.length)).length = offsets.length := by
    simp [h.le_length]
  rw [← List.length_pos_iff, hlength]
  exact List.length_pos_iff.mpr hne

theorem PlacedFirst.written {queue : List Bytes} (h : Roomy p slots)
    (hfirst : PlacedFirst p (min queue.length slots) (dataOffset p) queue size offsets)
    (hne : offsets ≠ []) (sequenceNumber : Nat) :
    let entries := offsets.zip (queue.take offsets.length)
    (uint16 size = size ∧ uint16 (ndpOffset p) = ndpOffset p ∧ entries.length ≤ slots) ∧
      ∃ tail, buildOutputTransfer (queue.take offsets.length) (layoutOf p size offsets)
          sequenceNumber = preamble p size sequenceNumber entries ++ tail ∧
        Written (preamble p size sequenceNumber entries) (dataOffset p) entries size tail := by
  intro entries
  have hentries : entries ≠ [] := hfirst.zip_ne_nil hne
  obtain ⟨hle, hlength, hplaced, -⟩ := hfirst
  have hzip : entries.length = offsets.length := by simp [entries, hlength]
  have hslots : entries.length ≤ slots := hzip.trans_le (hle.trans (Nat.min_le_right _ _))
  have hsize := hplaced.size_le hentries
  have hdata : dataOffset p ≤ size := hplaced.le h.modulus_pos
  have hoffset : ndpOffset p ≤ dataOffset p := Nat.le_add_right _ _
  have hsize16 : uint16 size = size := Nat.mod_eq_of_lt (by omega)
  have hoffset16 : uint16 (ndpOffset p) = ndpOffset p := Nat.mod_eq_of_lt (by omega)
  refine ⟨⟨hsize16, hoffset16, hslots⟩, ?_⟩
  have hheader : transferHeaderSize ≤ ndpOffset p := le_alignUp h.alignment_pos
  have hroom := h.room
  have hpreamble := length_preamble h size sequenceNumber entries
  obtain ⟨tail, hdatagrams, hwritten⟩ := appendDatagrams_ofBytes hplaced h.modulus_pos hentries
    (preamble p size sequenceNumber entries) (by rw [hpreamble, dataOffset]; omega)
  refine ⟨tail, ?_, hwritten⟩
  have hempty : ({} : BufferBuilder) = .ofBytes [] := rfl
  have hseek : ∀ bytes : Bytes, bytes.length = transferHeaderSize →
      (ofBytes bytes).seek (ndpOffset p) =
        .ofBytes (bytes ++ List.replicate (ndpOffset p - transferHeaderSize) 0) := by
    intro bytes hbytes
    rw [seek_ofBytes bytes (by omega), hbytes]
  have hend := seek_ofBytes
    (preamble p size sequenceNumber entries ++ tail) (Nat.le_of_eq hwritten.length)
  simp only [buildOutputTransfer, layoutOf, hempty, appendData_ofBytes, appendUint16_ofBytes,
    hoffset16, hsize16]
  rw [hseek _ (by simp [nthSignature, transferHeaderSize])]
  simp only [appendData_ofBytes, appendUint16_ofBytes,
    appendEntries_ofBytes, List.nil_append]
  rw [preamble] at hdatagrams
  rw [hdatagrams, ← preamble, hend, hwritten.length]
  simp

theorem transfers_placed {queue : List Bytes} (h : Roomy p slots)
    (hremainder : p.datagramRemainder < p.datagramModulus)
    (hsizes : ∀ d ∈ queue, d ≠ [])
    (hfirst : PlacedFirst p (min queue.length slots) (dataOffset p) queue size offsets)
    (hne : offsets ≠ []) (sequenceNumber : Nat) :
    Transfers queue p.datagramModulus p.datagramRemainder p.maxTransferSize (layoutOf p size offsets)
      (buildOutputTransfer (queue.take offsets.length) (layoutOf p size offsets)
        sequenceNumber) := by
  have hentries := hfirst.zip_ne_nil hne
  obtain ⟨⟨hsize16, hoffset16, hslots⟩, tail, htransfer, hwritten⟩ :=
    hfirst.written h hne sequenceNumber
  obtain ⟨hle, hlength, hplaced, -⟩ := hfirst
  have hdatagrams : ∀ e ∈ offsets.zip (queue.take offsets.length), e.2 ≠ [] := by
    rintro ⟨o, d⟩ he
    exact hsizes d (List.mem_of_mem_take (List.of_mem_zip he).2)
  have hlaid := laid_preamble h _ hplaced hentries hslots hdatagrams hwritten
  rw [htransfer]
  have hmem : ∀ o ∈ offsets, ∃ e ∈ offsets.zip (queue.take offsets.length), e.1 = o := by
    intro o ho
    rw [← map_fst_zip_take hlength] at ho
    exact List.mem_map.mp ho
  constructor
  · obtain ⟨fuel, ds, hread, hds⟩ := hlaid.handleNcmFrame
    exact ⟨fuel, ds, hread, hds.trans map_snd_zip_take⟩
  · intro o ho
    obtain ⟨e, he, rfl⟩ := hmem o ho
    exact hplaced.congruent hremainder e he
  · have hroom := h.room
    have hheader : transferHeaderSize ≤ ndpOffset p := le_alignUp h.alignment_pos
    simp only [layoutOf, hoffset16, hsize16]
    refine ⟨hheader, ?_, ?_, hplaced.apart h.modulus_pos, ?_⟩
    · simp only [List.length_take]
      omega
    · intro o ho
      obtain ⟨e, he, rfl⟩ := hmem o ho
      exact (Nat.le_add_right _ 14).trans (hplaced.bounds h.modulus_pos e he).1
    · exact fun e he => (hplaced.bounds h.modulus_pos e he).2
  · exact hwritten.length.trans hsize16.symm
  · exact hsize16.trans_le (hplaced.size_le hentries).2

end

/-- A transfer with as many datagrams as fit is read back as these. -/
theorem transfer_roundTrip (queue : List Bytes) (hqueue : queue ≠ [])
    (hsizes : ∀ d ∈ queue, d ≠ [] ∧ d.length ≤ 65535)
    (alignment modulus remainder slots limit sequenceNumber : Nat) (halignment : 1 ≤ alignment)
    (hmodulus : 1 ≤ modulus) (hremainder : remainder < modulus)
    (hslots : 1 ≤ slots ∧ slots ≤ 21) (hlimit : limit ≤ 16384) :
    ∃ fixed, ndpFixedHeaderSize slots alignment = .ok fixed ∧
      ∃ layout, TransferLayout.compute queue (min queue.length slots)
          ⟨limit, fixed, alignment, modulus, remainder⟩ = .ok layout ∧
        (1 ≤ layout.offsets.length →
          Transfers queue modulus remainder limit layout
            (buildOutputTransfer (queue.take layout.offsets.length) layout sequenceNumber)) ∧
        (layout.offsets.length < min queue.length slots →
          ∀ d ∈ queue[layout.offsets.length]?,
            Unfit ⟨limit, fixed, alignment, modulus, remainder⟩
              (reached ⟨limit, fixed, alignment, modulus, remainder⟩ layout) d) := by
  have hfixed : ndpFixedHeaderSize slots alignment =
      .ok (uint16 (alignUp (8 + slots * 4 + 4) alignment 0)) := by
    simp only [ndpFixedHeaderSize, align_eq_ok (show 0 < alignment from halignment)]
    rfl
  refine ⟨_, hfixed, ?_⟩
  let p : LayoutParameters :=
    ⟨limit, uint16 (alignUp (8 + slots * 4 + 4) alignment 0), alignment, modulus, remainder⟩
  have hroom : 0 < min queue.length slots :=
    lt_min (List.length_pos_iff.mpr hqueue) hslots.1
  obtain ⟨size, offsets, hfirst, hcompute⟩ := compute_eq_ok (p := p) halignment hmodulus
    (fun d hd => Nat.lt_succ_of_le (hsizes d hd).2) hroom
  refine ⟨_, hcompute, fun hpos => ?_, fun hlt d hd => ?_⟩
  · have hne : offsets ≠ [] := List.length_pos_iff.mp hpos
    have hdata : dataOffset p ≤ size := hfirst.placed.le hmodulus
    have hsize : size ≤ limit := (hfirst.placed.size_le (hfirst.zip_ne_nil hne)).2
    have hroomy : Roomy p slots := roomy_of_reached halignment hmodulus hslots.2 rfl
      (hdata.trans (hsize.trans hlimit))
    exact transfers_placed hroomy hremainder (fun d hd => (hsizes d hd).1) hfirst hne sequenceNumber
  · have hunfit := hfirst.full hlt d hd
    by_cases hnil : offsets = []
    · subst hnil
      cases hfirst.placed
      exact hunfit
    · have hsize := (hfirst.placed.size_le (hfirst.zip_ne_nil hnil)).1
      have hsize16 : uint16 size = size := Nat.mod_eq_of_lt (Nat.lt_succ_of_le hsize)
      simp only [reached, layoutOf, hnil, if_false, hsize16]
      exact hunfit

/-- Two datagrams, of which one fits. -/
theorem transfer_roundTrip_two :
    ∃ fixed, ndpFixedHeaderSize 2 4 = .ok fixed ∧
      ∃ layout, TransferLayout.compute [[1, 2, 3], List.replicate 40 7] (min 2 2)
          ⟨64, fixed, 4, 4, 2⟩ = .ok layout ∧
        (1 ≤ layout.offsets.length →
          Transfers [[1, 2, 3], List.replicate 40 7] 4 2 64 layout
            (buildOutputTransfer ([[1, 2, 3], List.replicate 40 7].take layout.offsets.length)
              layout 0)) ∧
        (layout.offsets.length < min 2 2 →
          ∀ d ∈ [[1, 2, 3], List.replicate 40 7][layout.offsets.length]?,
            Unfit ⟨64, fixed, 4, 4, 2⟩ (reached ⟨64, fixed, 4, 4, 2⟩ layout) d) :=
  transfer_roundTrip [[1, 2, 3], List.replicate 40 7] (by decide) (by decide) 4 4 2 2 64 0
    (by decide) (by decide) (by decide) (by decide) (by decide)

end FridaCore.Fruity.Ncm
