import FridaCore.Fruity.Ncm
import FridaCore.Support.Chain
import FridaCore.Support.Except

/-!
# Frames that are received

`handle_ncm_frame` follows the links from table to table for as long as there are any, and
a datagram that is said to go beyond the frame is filled up with zeros.
-/

namespace FridaCore.Fruity.Ncm

open List Option Prod

variable {frame sig : Bytes} {i next fuel : Nat} {ds : List Datagram}

def Datagram.Inside (d : Datagram) (frame : Bytes) : Prop :=
  d.index + d.length ≤ frame.length ∧ d.bytes = (frame.drop d.index).take d.length

/-- The table at an index: the next one and the datagrams, if all of it can be read. -/
def ndpAt (frame : Bytes) (i : Nat) : Option (Nat × List Datagram) :=
  match readNdp frame ndpSignature i with
  | .ok (_, next, datagrams) => some (next, datagrams)
  | .error _ => none

def link (frame : Bytes) (i : Nat) : Option Nat :=
  match ndpAt frame i with
  | some (next, _) => if next = 0 then none else some next
  | none => none

theorem readSignature_eq (hsig : sig.length = 4) (hinput : 4 ≤ input.length) :
    readSignature sig input = input.take 4 := by
  have hlength : (input.take 4).length = 4 := length_take_of_le hinput
  rw [readSignature, hlength, drop_eq_nil_of_le (Nat.le_of_eq hsig), append_nil]

/-- What the signature was before does not matter where a table can be read: all of it is
in the frame. -/
theorem readNdp_eq_ok (hsig : sig.length = 4) (hsig' : sig'.length = 4)
    (h : readNdp frame sig i = .ok r) : readNdp frame sig' i = .ok r ∧ r.1 = ndpSignature := by
  unfold readNdp at h ⊢
  split at h
  · cases h
  next hseek =>
  simp only at h
  split at h
  · cases h
  next hndp =>
  split at h
  · next n0 n1 rest hinput =>
    have hlength : 4 ≤ (frame.drop i).length := by
      have := congrArg length hinput
      simp only [length_drop, length_cons] at this
      simp only [length_drop]
      omega
    rw [readSignature_eq hsig hlength] at h hndp
    rw [if_neg hseek]
    simp only [readSignature_eq hsig' hlength, if_neg hndp, hinput]
    refine ⟨h, ?_⟩
    obtain ⟨datagrams, -, rfl⟩ := map_eq_ok h
    simpa using hndp
  · cases h

theorem readNdp_cases (hsig : sig.length = 4) (frame : Bytes) (i : Nat) :
    (∃ e, readNdp frame sig i = .error e ∧ ndpAt frame i = none) ∨
      ∃ next ds, readNdp frame sig i = .ok (ndpSignature, next, ds) ∧
        ndpAt frame i = some (next, ds) := by
  have hndp : ndpSignature.length = 4 := rfl
  cases hread : readNdp frame sig i with
  | error e =>
    cases hother : readNdp frame ndpSignature i with
    | error e' => simp [ndpAt, hother]
    | ok r =>
      rw [(readNdp_eq_ok hndp hsig hother).1] at hread
      cases hread
  | ok r =>
    obtain ⟨hother, hr⟩ := readNdp_eq_ok hsig hndp hread
    obtain ⟨sig', next, ds⟩ := r
    cases hr
    exact .inr ⟨next, ds, rfl, by simp [ndpAt, hother]⟩

theorem ndpAt_eq_some (h : ndpAt frame i = some (next, ds)) :
    ∃ n0 n1 rest, i ≤ frame.length ∧ (frame.drop i).drop 6 = n0 :: n1 :: rest ∧
      next = leValue [n0, n1] ∧ readDatagrams frame rest = .ok ds := by
  have hsig : ndpSignature.length = 4 := rfl
  obtain ⟨e, -, hnone⟩ | ⟨next', ds', hread, hsome⟩ := readNdp_cases hsig frame i
  · rw [h] at hnone
    cases hnone
  rw [h] at hsome
  cases hsome
  unfold readNdp at hread
  split at hread
  · cases hread
  next hseek =>
  simp only at hread
  split at hread
  · cases hread
  split at hread
  · next n0 n1 rest hinput =>
    obtain ⟨datagrams, hdatagrams, heq⟩ := map_eq_ok hread
    simp only [mk.injEq] at heq
    obtain ⟨-, rfl, rfl⟩ := heq
    exact ⟨n0, n1, rest, Nat.le_of_not_lt hseek, hinput, rfl, hdatagrams⟩
  · cases hread

inductive Walk (frame : Bytes) : Nat → List Nat → Prop
  | last {i : Nat} {ds : List Datagram} : ndpAt frame i = some (0, ds) → Walk frame i [i]
  | link {i next : Nat} {ds : List Datagram} {rest : List Nat} :
      ndpAt frame i = some (next, ds) → next ≠ 0 → Walk frame next rest → Walk frame i (i :: rest)

def datagramsAt (frame : Bytes) (i : Nat) : List Datagram :=
  match ndpAt frame i with
  | some (_, ds) => ds
  | none => []

theorem readNdps_isSome (hsig : sig.length = 4) (fuel i : Nat) :
    (readNdps frame fuel sig i).isSome ↔ follow (link frame) fuel i = none := by
  induction fuel generalizing sig i with
  | zero => simp [readNdps, follow]
  | succ fuel ih =>
    rcases readNdp_cases hsig frame i with ⟨e, hread, hndp⟩ | ⟨next, ds, hread, hndp⟩
    · simp [readNdps, hread, follow, link, hndp]
    · by_cases hnext : next = 0
      · simp [readNdps, hread, follow, link, hndp, hnext]
      · have hrest := @ih ndpSignature rfl next
        simpa [readNdps, hread, follow, link, hndp, hnext] using hrest

theorem readNdps_eq_ok (hsig : sig.length = 4) (h : readNdps frame fuel sig i = some (.ok ds)) :
    ∃ is, Walk frame i is ∧ ds = is.flatMap (datagramsAt frame) := by
  induction fuel generalizing sig i ds with
  | zero => cases h
  | succ fuel ih =>
    rcases readNdp_cases hsig frame i with ⟨e, hread, -⟩ | ⟨next, here, hread, hndp⟩
    · simp [readNdps, hread] at h
    · by_cases hnext : next = 0
      · subst hnext
        simp only [readNdps, hread, if_true, some.injEq, Except.ok.injEq] at h
        exact ⟨[i], .last hndp, by simp [datagramsAt, hndp, h]⟩
      · simp only [readNdps, hread, hnext, if_false] at h
        obtain ⟨r, hr, hmap⟩ := map_eq_some_iff.mp h
        obtain ⟨rest, rfl, rfl⟩ := map_eq_ok hmap
        obtain ⟨is, hwalk, rfl⟩ := ih rfl hr
        exact ⟨i :: is, .link hndp hnext hwalk, by simp [datagramsAt, hndp]⟩

theorem Walk.readNdps (hsig : sig.length = 4) (h : Walk frame i is) :
    ∃ fuel, readNdps frame fuel sig i = some (.ok (is.flatMap (datagramsAt frame))) := by
  induction h generalizing sig with
  | @last i ds hndp =>
    refine ⟨1, ?_⟩
    rcases readNdp_cases hsig frame i with ⟨e, -, hnone⟩ | ⟨next, here, hread, hsome⟩
    · rw [hndp] at hnone
      cases hnone
    · rw [hndp] at hsome
      cases hsome
      simp [Ncm.readNdps, hread, datagramsAt, hndp]
  | @link i next ds rest hndp hnext hwalk ih =>
    obtain ⟨fuel, hfuel⟩ := @ih ndpSignature rfl
    refine ⟨fuel + 1, ?_⟩
    rcases readNdp_cases hsig frame i with ⟨e, -, hnone⟩ | ⟨next', here, hread, hsome⟩
    · rw [hndp] at hnone
      cases hnone
    · rw [hndp] at hsome
      cases hsome
      simp [Ncm.readNdps, hread, hnext, hfuel, Except.map, datagramsAt, hndp]

/-- No table is come back to. Where the links come to an end, all datagrams are inside the
frame. -/
structure Orderly (frame : Bytes) : Prop where
  ends : ∀ start, readHeader frame = .ok start → ¬ComesBack (link frame) start
  inside : ∀ start is, readHeader frame = .ok start → Walk frame start is →
    ∀ i ∈ is, ∀ d ∈ datagramsAt frame i, d.index + d.length ≤ frame.length

theorem leValue_pair_lt (low high : UInt8) : leValue [low, high] < 2 ^ 16 := by
  simpa using leValue_lt [low, high]

theorem ndpAt_lt (h : ndpAt frame i = some (next, ds)) : next < 2 ^ 16 := by
  obtain ⟨n0, n1, rest, -, -, rfl, -⟩ := ndpAt_eq_some h
  exact leValue_pair_lt n0 n1

theorem follow_link_lt (hstart : start < 2 ^ 16) (n i : Nat)
    (h : follow (link frame) n start = some i) : i < 2 ^ 16 := by
  induction n generalizing start with
  | zero =>
    cases h
    exact hstart
  | succ n ih =>
    obtain ⟨next, hlink, h⟩ := bind_eq_some_iff.mp h
    refine ih ?_ h
    unfold link at hlink
    split at hlink
    · next next' ds hndp =>
      split at hlink
      · cases hlink
      · cases hlink
        exact ndpAt_lt hndp
    · cases hlink

theorem readHeader_lt (h : readHeader frame = .ok start) : start < 2 ^ 16 := by
  unfold readHeader at h
  split at h
  · cases h
  · split at h
    · next i0 i1 _ _ =>
      cases h
      exact leValue_pair_lt i0 i1
    · cases h

/-- Reading a frame comes to an end if and only if no table is come back to. -/
theorem handleNcmFrame_terminates (frame : Bytes) :
    (∃ fuel r, handleNcmFrame fuel frame = some r) ↔
      ∀ start, readHeader frame = .ok start → ¬ComesBack (link frame) start := by
  cases hheader : readHeader frame with
  | error e => simp [handleNcmFrame, hheader]
  | ok start =>
    have hbound : ∀ n i, follow (link frame) n start = some i → i < 2 ^ 16 :=
      follow_link_lt (readHeader_lt hheader)
    simp only [handleNcmFrame, hheader, ← isSome_iff_exists, Except.ok.injEq, forall_eq']
    rw [← exists_follow_eq_none_iff hbound]
    exact exists_congr fun fuel => readNdps_isSome rfl fuel start

theorem readDatagrams_eq_ok (h : readDatagrams frame input = .ok ds) :
    ∀ d ∈ ds, d = readDatagram frame d.index d.length := by
  fun_induction readDatagrams frame input generalizing ds with
  | case1 =>
    cases h
    simp
  | case2 => cases h
  | case3 =>
    rename_i ih
    obtain ⟨tail, htail, rfl⟩ := map_eq_ok h
    intro d hd
    rcases mem_cons.mp hd with rfl | hd
    · rfl
    · exact ih htail d hd
  | case4 => cases h

theorem mem_datagramsAt (h : d ∈ datagramsAt frame i) :
    d = readDatagram frame d.index d.length := by
  unfold datagramsAt at h
  split at h
  · next next ds hndp =>
    obtain ⟨n0, n1, rest, -, -, -, hread⟩ := ndpAt_eq_some hndp
    exact readDatagrams_eq_ok hread d h
  · cases h

/-- A datagram is the slice it is said to be if and only if that is inside the frame. -/
theorem readDatagram_inside (frame : Bytes) (index length : Nat) :
    (readDatagram frame index length).Inside frame ↔ index + length ≤ frame.length := by
  constructor
  · exact fun h => h.1
  · intro h
    have htake : ((frame.drop index).take length).length = length := by
      simp only [length_take, length_drop]
      omega
    exact ⟨h, by simp [readDatagram, htake]⟩

theorem inside_iff (h : d ∈ datagramsAt frame i) :
    d.Inside frame ↔ d.index + d.length ≤ frame.length := by
  rw [mem_datagramsAt h]
  exact readDatagram_inside frame d.index d.length

theorem handleNcmFrame_eq_ok (frame : Bytes) (ds : List Datagram) :
    (∃ fuel, handleNcmFrame fuel frame = some (.ok ds)) ↔
      ∃ start is, readHeader frame = .ok start ∧ Walk frame start is ∧
        ds = is.flatMap (datagramsAt frame) := by
  cases hheader : readHeader frame with
  | error e => simp [handleNcmFrame, hheader]
  | ok start =>
    simp only [handleNcmFrame, hheader]
    constructor
    · rintro ⟨fuel, h⟩
      obtain ⟨is, hwalk, hds⟩ := readNdps_eq_ok rfl h
      exact ⟨start, is, rfl, hwalk, hds⟩
    · rintro ⟨_, is, ⟨⟩, hwalk, rfl⟩
      exact hwalk.readNdps rfl

/-- Reading a frame comes to an end, and what is returned is inside of it, if and only if
no table is come back to and, where the links come to an end, no datagram goes beyond the
frame. -/
theorem handleNcmFrame_safe_iff (frame : Bytes) :
    ((∃ fuel r, handleNcmFrame fuel frame = some r) ∧
      ∀ fuel ds, handleNcmFrame fuel frame = some (.ok ds) → ∀ d ∈ ds, d.Inside frame) ↔
      Orderly frame := by
  rw [handleNcmFrame_terminates]
  constructor
  · rintro ⟨hends, hinside⟩
    refine ⟨hends, fun start is hheader hwalk i hi d hd => ?_⟩
    obtain ⟨fuel, hfuel⟩ := (handleNcmFrame_eq_ok frame _).mpr ⟨start, is, hheader, hwalk, rfl⟩
    exact (inside_iff hd).mp (hinside fuel _ hfuel d (mem_flatMap.mpr ⟨i, hi, hd⟩))
  · rintro ⟨hends, hinside⟩
    refine ⟨hends, fun fuel ds hds d hd => ?_⟩
    obtain ⟨start, is, hheader, hwalk, rfl⟩ := (handleNcmFrame_eq_ok frame ds).mp ⟨fuel, hds⟩
    obtain ⟨i, hi, hd⟩ := mem_flatMap.mp hd
    exact (inside_iff hd).mpr (hinside start is hheader hwalk i hi d hd)

def selfLinked : Bytes :=
  nthSignature ++ leBytes 2 12 ++ leBytes 2 0 ++ leBytes 2 24 ++ leBytes 2 12 ++
    ndpSignature ++ leBytes 2 12 ++ leBytes 2 12 ++ leBytes 2 0 ++ leBytes 2 0

def truncated : Bytes :=
  nthSignature ++ leBytes 2 12 ++ leBytes 2 0 ++ leBytes 2 28 ++ leBytes 2 12 ++
    ndpSignature ++ leBytes 2 16 ++ leBytes 2 0 ++ leBytes 2 28 ++ leBytes 2 1 ++
    leBytes 2 0 ++ leBytes 2 0

/-- Reading the one never ends, and the other has a datagram that is not in the frame. -/
theorem selfLinked_never_read :
    (¬∃ fuel r, handleNcmFrame fuel selfLinked = some r) ∧
      handleNcmFrame 1 truncated = some (.ok [⟨28, 1, [0]⟩]) ∧ truncated.length = 28 := by
  refine ⟨?_, by decide, by decide⟩
  rw [handleNcmFrame_terminates]
  intro h
  exact h 12 (by decide) ⟨0, 12, rfl, 0, by decide⟩

end FridaCore.Fruity.Ncm
