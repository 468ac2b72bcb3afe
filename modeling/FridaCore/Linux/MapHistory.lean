import FridaCore.Linux.ProcMaps
import FridaCore.Support.Lists
import FridaCore.Support.Machine

/-!
# What was mapped when

`AddressSpace` says what is mapped at every address, and a history says so for every
generation. Looking up an address at a generation agrees with the history as long as
the mappings, dead ones included, are in the order of their starts and of their ends
(`Staircase`): the search is a binary one. Ending a range keeps that order unless it
cuts off the beginning of a mapping, or cuts a mapping where it overlaps a dead one;
a new mapping has to fit in with the dead ones as well (`Orderly`).
-/

namespace FridaCore.Linux

open List Option ProcMapsSnapshot Mapping

structure Backing where
  path : String
  device : DevId
  inode : UInt64
  position : UInt64
  deriving DecidableEq, Repr

def Mapping.backing (m : Mapping) (addr : UInt64) : Backing :=
  ⟨m.path, m.device, m.inode, m.fileOffset + (addr - m.start)⟩

abbrev AddressSpace := UInt64 → Option Backing

structure MapEvent where
  gen : UInt32
  start : UInt64
  stop : UInt64
  /-- A range is destroyed if there is nothing new. -/
  new : Option NewMapping
  deriving DecidableEq, Repr

namespace MapEvent

def covers (e : MapEvent) (addr : UInt64) : Bool := addr ≥ e.start && addr < e.stop

def apply (e : MapEvent) (space : AddressSpace) : AddressSpace := fun addr =>
  if e.covers addr then
    e.new.map fun new => ⟨new.path, new.device, new.inode, new.fileOffset + (addr - e.start)⟩
  else space addr

end MapEvent

def ProcMapsSnapshot.apply (s : ProcMapsSnapshot) (e : MapEvent) : ProcMapsSnapshot :=
  match e.new with
  | some new => s.applyCreate e.gen e.start e.stop new
  | none => s.applyDestroyRange e.gen e.start e.stop

structure MapHistory where
  snapshot : ProcMapsSnapshot
  space : UInt32 → AddressSpace

namespace MapHistory

def initial (lines : List MapsLine) : MapHistory :=
  let snapshot := ProcMapsSnapshot.buildFromPid lines
  { snapshot
    space := fun _ addr => (snapshot.maps.find? fun m => m.contains addr).map fun m =>
      m.backing addr }

/-- Generations increase, and ranges are not empty. From its generation on the event
has happened. -/
def step (h : MapHistory) (e : MapEvent) : Option MapHistory :=
  if h.snapshot.gen < e.gen ∧ e.start < e.stop then
    some
      { snapshot := h.snapshot.apply e
        space := fun gen =>
          if gen < e.gen then h.space gen else e.apply (h.space h.snapshot.gen) }
  else none

/-- Every lookup from the first generation to the current one finds a mapping that
contains the address and stands for what was mapped there, or nothing if nothing was. -/
def Exact (h : MapHistory) : Prop :=
  ∀ addr gen, 1 ≤ gen → gen ≤ h.snapshot.gen →
    (∀ m ∈ h.snapshot.findMappingAtGen addr gen, m.contains addr) ∧
      (h.snapshot.findMappingAtGen addr gen).map (fun m => m.backing addr) = h.space gen addr

end MapHistory

def Mapping.inside (m : Mapping) (addr : UInt64) : Bool := m.start < addr && addr < m.stop

/-- No mapping loses its beginning, and a mapping is not cut inside a dead one. -/
def CutsCleanly (maps : List Mapping) (start stop : UInt64) : Prop :=
  ∀ m ∈ maps, m.endGen = 0 →
    ¬ (start ≤ m.start ∧ m.start < stop ∧ stop < m.stop) ∧
      ∀ c ∈ maps, c.endGen ≠ 0 → m.inside start →
        ¬ c.inside start ∧ (m.inside stop → ¬ c.inside stop)

def FitsIn (maps : List Mapping) (start stop : UInt64) : Prop :=
  ∀ c ∈ maps,
    (c.start < start → if c.endGen = 0 then c.stop ≤ start ∨ stop ≤ c.stop else c.stop ≤ stop) ∧
      (start ≤ c.start → stop ≤ c.stop)

def MapHistory.Orderly (h : MapHistory) (e : MapEvent) : Prop :=
  CutsCleanly h.snapshot.maps e.start e.stop ∧
    (e.new.isSome → FitsIn h.snapshot.maps e.start e.stop)

instance (maps : List Mapping) (start stop : UInt64) : Decidable (CutsCleanly maps start stop) :=
  inferInstanceAs (Decidable (∀ m ∈ maps, m.endGen = 0 → _ ∧ ∀ c ∈ maps, _))

instance (maps : List Mapping) (start stop : UInt64) : Decidable (FitsIn maps start stop) :=
  inferInstanceAs (Decidable (∀ c ∈ maps, _ ∧ _))

instance (h : MapHistory) (e : MapEvent) : Decidable (h.Orderly e) :=
  inferInstanceAs (Decidable (_ ∧ _))

/-- In the order of the starts and of the ends; mappings that are there are disjoint. -/
def Before (m c : Mapping) : Prop :=
  m.start ≤ c.start ∧ m.stop ≤ c.stop ∧ (m.endGen = 0 → c.endGen = 0 → m.stop ≤ c.start)

def Staircase (maps : List Mapping) : Prop := maps.Pairwise Before

variable {maps : List Mapping} {m c p q : Mapping} {addr start stop : UInt64} {gen : UInt32}

theorem Staircase.le (h : Staircase maps) {i j : Nat} (hi : maps[i]? = some m)
    (hj : maps[j]? = some c) (hij : i ≤ j) : m.start ≤ c.start ∧ m.stop ≤ c.stop := by
  obtain ⟨hi', rfl⟩ := List.getElem?_eq_some_iff.mp hi
  obtain ⟨hj', rfl⟩ := List.getElem?_eq_some_iff.mp hj
  rcases Nat.lt_or_eq_of_le hij with hlt | rfl
  · have hbefore := List.pairwise_iff_getElem.mp h i j hi' hj' hlt
    exact ⟨hbefore.1, hbefore.2.1⟩
  · exact ⟨UInt64.le_refl _, UInt64.le_refl _⟩

namespace ProcMapsSnapshot

theorem isMatch_iff : isMatch addr gen c = true ↔
    (c.start ≤ addr ∧ addr < c.stop) ∧ c.aliveAt gen = true := by
  simp [isMatch, Mapping.contains]

theorem scanDown_match (h : scanDown maps addr gen i = some m) :
    m ∈ maps ∧ isMatch addr gen m = true := by
  induction i with
  | zero => cases h
  | succ i ih =>
    simp only [scanDown] at h
    split at h
    · rename_i c hc
      split at h
      · cases h
      · split at h
        · rename_i hmatch
          cases h
          exact ⟨mem_of_getElem? hc, hmatch⟩
        · exact ih h
    · cases h

theorem scanUp_match (h : scanUp addr gen maps = some m) :
    m ∈ maps ∧ isMatch addr gen m = true := by
  induction maps with
  | nil => cases h
  | cons c rest ih =>
    simp only [scanUp] at h
    split at h
    · cases h
    · split at h
      · rename_i hmatch
        cases h
        exact ⟨mem_cons_self, hmatch⟩
      · exact (ih h).imp (mem_cons_of_mem _) fun h => h

theorem search_match (h : search maps addr gen fuel lo hi = some m) :
    m ∈ maps ∧ isMatch addr gen m = true := by
  induction fuel generalizing lo hi with
  | zero => cases h
  | succ fuel ih =>
    simp only [search] at h
    split at h
    · split at h
      · split at h
        · exact ih h
        · split at h
          · exact ih h
          · rcases or_eq_some_iff.mp h with h | ⟨-, h⟩
            · exact scanDown_match h
            · exact (scanUp_match h).imp mem_of_mem_drop fun h => h
      · cases h
    · cases h

theorem scanDown_isSome (hlen : i ≤ maps.length)
    (hstart : ∀ j < i, ∀ m ∈ maps[j]?, m.start ≤ addr) (hk : maps[k]? = some c) (hki : k < i)
    (hmatch : isMatch addr gen c = true) : (scanDown maps addr gen i).isSome := by
  induction i with
  | zero => cases hki
  | succ i ih =>
    obtain ⟨m, hm⟩ : ∃ m, maps[i]? = some m := ⟨_, getElem?_eq_getElem (by omega)⟩
    have hle : ¬ addr < m.start := UInt64.not_lt.mpr (hstart i (Nat.lt_succ_self i) m hm)
    simp only [scanDown, hm, hle, ↓reduceIte]
    split
    · rfl
    · rename_i hno
      have hne : k ≠ i := by
        rintro rfl
        cases hk.symm.trans hm
        exact hno hmatch
      exact ih (by omega) (fun j hj => hstart j (by omega)) (by omega)

theorem scanUp_isSome (h : Staircase maps) (hc : c ∈ maps) (hmatch : isMatch addr gen c = true) :
    (scanUp addr gen maps).isSome := by
  induction maps with
  | nil => cases hc
  | cons m rest ih =>
    obtain ⟨hbefore, hrest⟩ := pairwise_cons.mp h
    have hcs := (isMatch_iff.mp hmatch).1.1
    have hle : ¬ addr < m.start := by
      rcases mem_cons.mp hc with rfl | hc
      · exact UInt64.not_lt.mpr hcs
      · exact UInt64.not_lt.mpr (UInt64.le_trans (hbefore c hc).1 hcs)
    simp only [scanUp, hle, ↓reduceIte]
    split
    · rfl
    · rename_i hno
      rcases mem_cons.mp hc with rfl | hc
      · exact absurd hmatch hno
      · exact ih hrest hc

/-- The search does not turn away from a mapping that matches, nor run out of turns. -/
theorem search_isSome {fuel lo hi k : Nat} (h : Staircase maps) (hk : maps[k]? = some c)
    (hmatch : isMatch addr gen c = true) (hlo : lo ≤ k) (hhi : k < hi) (hlen : hi ≤ maps.length)
    (hfuel : hi - lo ≤ fuel) : (search maps addr gen fuel lo hi).isSome := by
  obtain ⟨⟨hstart, hstop⟩, -⟩ := isMatch_iff.mp hmatch
  induction fuel generalizing lo hi with
  | zero => omega
  | succ fuel ih =>
    rw [search, if_pos (by omega)]
    generalize hmid : lo + (hi - 1 - lo) / 2 = mid
    obtain ⟨m, hm⟩ : ∃ m, maps[mid]? = some m := ⟨_, getElem?_eq_getElem (by omega)⟩
    simp only [hm]
    split
    · have hkm : k < mid := by
        by_contra hge
        have := (h.le hm hk (by omega)).1
        grind
      exact ih hlo hkm (by omega) (by omega)
    · split
      · have hmk : mid < k := by
          by_contra hle
          have := (h.le hk hm (by omega)).2
          grind
        exact ih hmk hhi hlen (by omega)
      · rename_i hms _
        rcases Nat.lt_or_ge mid k with hmk | hkm
        · have hdrop : c ∈ maps.drop (mid + 1) := by
            refine mem_of_getElem? (i := k - (mid + 1)) ?_
            rw [getElem?_drop, Nat.add_sub_cancel' hmk, hk]
          simp [scanUp_isSome (h.sublist (drop_sublist _ _)) hdrop hmatch]
        · have hdown := scanDown_isSome (by omega : mid + 1 ≤ maps.length)
            (fun j hj m' hm' => UInt64.le_trans (h.le hm' hm (by omega)).1 (UInt64.not_lt.mp hms))
            hk (by omega) hmatch
          simp [hdown]

theorem findMappingAtGen_spec {s : ProcMapsSnapshot} (addr : UInt64) (gen : UInt32)
    (h : Staircase s.maps) :
    (∀ m, s.findMappingAtGen addr gen = some m → m ∈ s.maps ∧ isMatch addr gen m = true) ∧
      (s.findMappingAtGen addr gen = none → ∀ m ∈ s.maps, isMatch addr gen m = false) := by
  refine ⟨fun m hm => search_match hm, fun hnone m hm => ?_⟩
  by_contra hmatch
  obtain ⟨k, hk⟩ := List.getElem?_of_mem hm
  obtain ⟨hlt, -⟩ := List.getElem?_eq_some_iff.mp hk
  have hsome := search_isSome h hk (by simpa using hmatch) (Nat.zero_le k) hlt le_rfl (Nat.sub_le _ _)
  rw [findMappingAtGen] at hnone
  rw [hnone] at hsome
  cases hsome

end ProcMapsSnapshot

def Mapping.pieces (m : Mapping) (start stop : UInt64) (gen : UInt32) : List Mapping :=
  (m.endRange start stop gen).1 :: (m.endRange start stop gen).2

theorem endRangeFrom_eq (hi : i ≤ maps.length) :
    endRangeFrom start stop gen i maps =
      (maps.take i).flatMap (fun m => m.pieces start stop gen) ++ maps.drop i := by
  induction i generalizing maps with
  | zero => simp [endRangeFrom]
  | succ i ih =>
    have hlt : i < maps.length := hi
    have hat : endRangeAt start stop gen maps i =
        maps.take i ++ (maps[i].pieces start stop gen ++ maps.drop (i + 1)) := by
      simp [endRangeAt, hlt, pieces, take_add_one, take_set,
        drop_set, set_eq_of_length_le]
    have htake : (maps.take i).length = i := length_take_of_le hlt.le
    rw [endRangeFrom, ih (by simp [hat]; omega), hat,
      take_left' htake, drop_left' htake, ← take_append_getElem hlt]
    simp only [flatMap_append, flatMap_singleton, append_assoc]

theorem endRangeAtGen_maps (s : ProcMapsSnapshot) :
    (s.endRangeAtGen start stop gen).maps = s.maps.flatMap fun m => m.pieces start stop gen := by
  rw [endRangeAtGen, endRangeFrom_eq le_rfl]
  simp

inductive Cut (m : Mapping) (start stop : UInt64) (gen : UInt32) : List Mapping → Prop
  | untouched (h : m.endGen ≠ 0 ∨ stop ≤ m.start ∨ m.stop ≤ start) : Cut m start stop gen [m]
  | covered (h : m.endGen = 0) (hstart : start ≤ m.start) (hstop : m.stop ≤ stop) :
    Cut m start stop gen [{ m with endGen := gen }]
  | head (h : m.endGen = 0) (hstart : start ≤ m.start) (hin : m.start < stop)
      (hstop : stop < m.stop) :
    Cut m start stop gen
      [{ m with start := stop, fileOffset := m.fileOffset + (stop - m.start) },
        m.part m.start stop m.fileOffset gen]
  | tail (h : m.endGen = 0) (hstart : m.start < start) (hin : start < m.stop)
      (hstop : m.stop ≤ stop) :
    Cut m start stop gen
      [{ m with stop := start }, m.part start m.stop (m.fileOffset + (start - m.start)) gen]
  | middle (h : m.endGen = 0) (hstart : m.start < start) (hin : m.start < stop)
      (hin' : start < m.stop) (hstop : stop < m.stop) :
    Cut m start stop gen
      [{ m with stop := start },
        m.part start stop (m.fileOffset + (start - m.start)) gen,
        m.part stop m.stop (m.fileOffset + (stop - m.start)) 0]

theorem pieces_cut (m : Mapping) (start stop : UInt64) (gen : UInt32) :
    Cut m start stop gen (m.pieces start stop gen) := by
  unfold pieces endRange
  split
  · exact .untouched (.inl ‹_›)
  · rename_i hactive
    have hactive : m.endGen = 0 := not_not.mp hactive
    split
    · exact .untouched (.inr ‹_›)
    · obtain ⟨hstop, hstart⟩ : m.start < stop ∧ start < m.stop := by grind
      split
      · exact .covered hactive (by grind) (by grind)
      · split
        · exact .head hactive (by grind) hstop (by grind)
        · split
          · exact .tail hactive (by grind) hstart (by grind)
          · split
            · exact .middle hactive (by grind) hstop hstart (by grind)
            · exact absurd hactive (by grind)

/-- A piece stands for what the mapping did, and ends now or when the mapping does. -/
structure PieceOf (m : Mapping) (start stop : UInt64) (gen : UInt32) (p : Mapping) : Prop where
  within : m.start ≤ p.start ∧ p.stop ≤ m.stop
  backing : ∀ addr, p.backing addr = m.backing addr
  startGen : p.startGen = m.startGen
  ended : m.endGen = 0 ∧ p.endGen = gen ∧ start ≤ p.start ∧ p.stop ≤ stop ∨
    p.endGen = m.endGen ∧ (m.endGen = 0 → p.stop ≤ start ∨ stop ≤ p.start)
  nonempty : start < stop → m.start < m.stop → p.start < p.stop

theorem pieceOf_of_mem (hp : p ∈ m.pieces start stop gen) : PieceOf m start stop gen p := by
  -- the offset of a piece makes up for where it starts
  have hoffset : ∀ cut addr : UInt64,
      m.fileOffset + (cut - m.start) + (addr - cut) = m.fileOffset + (addr - m.start) := by grind
  have hcut := pieces_cut m start stop gen
  generalize m.pieces start stop gen = ps at hp hcut
  cases hcut with
  | untouched h | covered h =>
    cases mem_singleton.mp hp
    exact ⟨by grind, fun _ => rfl, rfl, by grind, fun _ h => h⟩
  | head h =>
    simp only [mem_cons, not_mem_nil, or_false] at hp
    rcases hp with rfl | rfl
    · exact ⟨by grind, by simp [backing, hoffset], rfl, by grind, by grind⟩
    · exact ⟨by grind [part], fun _ => rfl, rfl, by grind [part],
        by grind [part]⟩
  | tail h =>
    simp only [mem_cons, not_mem_nil, or_false] at hp
    rcases hp with rfl | rfl
    · exact ⟨by grind, fun _ => rfl, rfl, by grind, by grind⟩
    · exact ⟨by grind [part], by simp [backing, part, hoffset], rfl,
        by grind [part], by grind [part]⟩
  | middle h =>
    simp only [mem_cons, not_mem_nil, or_false] at hp
    rcases hp with rfl | rfl | rfl
    · exact ⟨by grind, fun _ => rfl, rfl, by grind, by grind⟩
    · exact ⟨by grind [part], by simp [backing, part, hoffset], rfl,
        by grind [part], by grind [part]⟩
    · exact ⟨by grind [part], by simp [backing, part, hoffset], rfl,
        by grind [part], by grind [part]⟩

theorem contains_iff : m.contains addr = true ↔ m.start ≤ addr ∧ addr < m.stop := by
  simp [Mapping.contains]

theorem inside_iff : m.inside addr = true ↔ m.start < addr ∧ addr < m.stop := by
  simp [inside]

/-- Every address of a mapping is in a piece, which ends now if the address is in the
range. -/
theorem exists_piece (start stop : UInt64) (gen : UInt32) (hc : m.contains addr = true) :
    ∃ p ∈ m.pieces start stop gen, p.contains addr = true ∧
      p.endGen = if m.endGen = 0 ∧ start ≤ addr ∧ addr < stop then gen else m.endGen := by
  simp only [contains_iff] at hc ⊢
  have hcut := pieces_cut m start stop gen
  generalize m.pieces start stop gen = ps at hcut
  cases hcut with
  | untouched h => exact ⟨m, by simp, hc, by grind⟩
  | covered h => exact ⟨_, mem_singleton_self _, hc, by grind⟩
  | head h =>
    by_cases hlt : addr < stop
    · exact ⟨_, mem_of_getElem? (i := 1) rfl, by grind [part], by grind [part]⟩
    · exact ⟨_, mem_of_getElem? (i := 0) rfl, by grind, by grind⟩
  | tail h =>
    by_cases hlt : addr < start
    · exact ⟨_, mem_of_getElem? (i := 0) rfl, by grind, by grind⟩
    · exact ⟨_, mem_of_getElem? (i := 1) rfl, by grind [part], by grind [part]⟩
  | middle h =>
    by_cases hlt : addr < start
    · exact ⟨_, mem_of_getElem? (i := 0) rfl, by grind, by grind⟩
    · by_cases hlt' : addr < stop
      · exact ⟨_, mem_of_getElem? (i := 1) rfl, by grind [part],
          by grind [part]⟩
      · exact ⟨_, mem_of_getElem? (i := 2) rfl, by grind [part],
          by grind [part]⟩

/-- Where the pieces of a mapping start and stop, if its beginning is not cut off. -/
theorem piece_bounds (hhead : m.endGen = 0 → ¬ (start ≤ m.start ∧ m.start < stop ∧ stop < m.stop))
    (hp : p ∈ m.pieces start stop gen) :
    (p.start = m.start ∨ m.endGen = 0 ∧ m.inside start ∧
        (p.start = start ∨ p.start = stop ∧ m.inside stop)) ∧
      (p.stop = m.stop ∨ m.endGen = 0 ∧ m.inside start ∧
        (p.stop = start ∨ p.stop = stop ∧ m.inside stop)) := by
  simp only [inside_iff]
  have hcut := pieces_cut m start stop gen
  generalize m.pieces start stop gen = ps at hp hcut
  cases hcut with
  | untouched h | covered h | head h => grind
  | tail h | middle h => grind [part]

theorem pieces_staircase (hrange : start < stop)
    (hhead : m.endGen = 0 → ¬ (start ≤ m.start ∧ m.start < stop ∧ stop < m.stop)) :
    Staircase (m.pieces start stop gen) := by
  have hcut := pieces_cut m start stop gen
  generalize m.pieces start stop gen = ps at hcut
  cases hcut with
  | untouched h | covered h => exact pairwise_singleton _ _
  | head h h₁ h₂ h₃ => exact absurd ⟨h₁, h₂, h₃⟩ (hhead h)
  | tail h =>
    simp only [Staircase, pairwise_cons, mem_singleton, forall_eq, not_mem_nil,
      false_implies, implies_true, List.Pairwise.nil, and_true, Before, part]
    grind
  | middle h =>
    simp only [Staircase, pairwise_cons, mem_cons, not_mem_nil, or_false,
      forall_eq_or_imp, forall_eq, false_implies, implies_true, List.Pairwise.nil, and_true, Before,
      part]
    grind

/-- The pieces of two mappings are in order if neither mapping is cut inside the
other. -/
theorem before_pieces (hb : Before m c) (hclean : CutsCleanly maps start stop) (hm : m ∈ maps)
    (hc : c ∈ maps) (hgen : gen ≠ 0) (hp : p ∈ m.pieces start stop gen)
    (hq : q ∈ c.pieces start stop gen) : Before p q := by
  have hps := piece_bounds (fun h => (hclean m hm h).1) hp
  have hqs := piece_bounds (fun h => (hclean c hc h).1) hq
  have hmc := fun h h' => (hclean m hm h).2 c hc h'
  have hcm := fun h h' => (hclean c hc h).2 m hm h'
  obtain ⟨⟨hpstart, hpstop⟩, -, -, hpend, -⟩ := pieceOf_of_mem hp
  obtain ⟨⟨hqstart, hqstop⟩, -, -, hqend, -⟩ := pieceOf_of_mem hq
  obtain ⟨hstart, hstop, hdisjoint⟩ := hb
  simp only [inside_iff] at hps hqs hmc hcm
  refine ⟨?_, ?_, ?_⟩
  · rcases hps.1 with heq | ⟨hactive, hin, heq⟩
    · grind
    · -- the cut is inside the first mapping, so the second one starts behind it
      by_cases hca : c.endGen = 0
      · grind
      · grind
  · rcases hqs.2 with heq | ⟨hactive, hin, heq⟩
    · grind
    · by_cases hma : m.endGen = 0
      · grind
      · grind
  · grind

theorem endRange_staircase (h : Staircase maps) (hclean : CutsCleanly maps start stop)
    (hrange : start < stop) (hgen : gen ≠ 0) :
    Staircase (maps.flatMap fun m => m.pieces start stop gen) := by
  refine pairwise_flatMap.mpr ⟨fun m hm => ?_, ?_⟩
  · exact pieces_staircase hrange fun h => (hclean m hm h).1
  · exact h.imp_of_mem fun hm hc hb p hp q hq => before_pieces hb hclean hm hc hgen hp hq

theorem mem_insertSorted : p ∈ insertSorted m maps ↔ p = m ∨ p ∈ maps := by
  induction maps with
  | nil => simp [insertSorted]
  | cons c rest ih =>
    simp only [insertSorted]
    split <;> simp [ih, or_left_comm]

theorem insertSorted_staircase (h : Staircase maps)
    (hfits : ∀ c ∈ maps, (c.start < m.start → Before c m) ∧ (m.start ≤ c.start → Before m c)) :
    Staircase (insertSorted m maps) := by
  induction maps with
  | nil => exact pairwise_singleton _ _
  | cons c rest ih =>
    obtain ⟨hbefore, hrest⟩ := pairwise_cons.mp h
    simp only [insertSorted]
    split
    · rename_i hlt
      refine pairwise_cons.mpr ⟨fun p hp => ?_, ih hrest fun c hc => hfits c (.tail _ hc)⟩
      rcases mem_insertSorted.mp hp with rfl | hp
      · exact (hfits c (.head _)).1 hlt
      · exact hbefore p hp
    · rename_i hge
      refine pairwise_cons.mpr ⟨fun p hp => (hfits p hp).2 ?_, h⟩
      rcases mem_cons.mp hp with rfl | hp
      · exact UInt64.not_lt.mp hge
      · exact UInt64.le_trans (UInt64.not_lt.mp hge) (hbefore p hp).1

theorem new_fits (hfits : FitsIn maps start stop) (hclean : CutsCleanly maps start stop)
    (hrange : start < stop) (hgen : gen ≠ 0) (hc : c ∈ maps) (hne : c.start < c.stop)
    (hq : q ∈ c.pieces start stop gen) (hm : m.start = start ∧ m.stop = stop) :
    (q.start < start → Before q m) ∧ (start ≤ q.start → Before m q) := by
  have hqs := piece_bounds (fun h => (hclean c hc h).1) hq
  obtain ⟨⟨hqstart, hqstop⟩, -, -, hqend, hqne⟩ := pieceOf_of_mem hq
  obtain ⟨hearlier, hlater⟩ := hfits c hc
  unfold Before
  by_cases hactive : c.endGen = 0
  · grind
  · grind

namespace MapHistory

variable {h t : MapHistory} {e : MapEvent}

structure Inv (h : MapHistory) : Prop where
  stairs : Staircase h.snapshot.maps
  nonempty : ∀ m ∈ h.snapshot.maps, m.start < m.stop
  gens : ∀ m ∈ h.snapshot.maps, m.startGen ≤ h.snapshot.gen ∧ m.endGen ≤ h.snapshot.gen
  first : 1 ≤ h.snapshot.gen
  sound : ∀ m ∈ h.snapshot.maps, ∀ addr gen, m.contains addr = true → m.aliveAt gen = true →
    h.space gen addr = some (m.backing addr)
  complete : ∀ addr gen, 1 ≤ gen → (h.space gen addr).isSome →
    ∃ m ∈ h.snapshot.maps, m.contains addr = true ∧ m.aliveAt gen = true

theorem aliveAt_iff : m.aliveAt gen = true ↔
    m.startGen ≤ gen ∧ (m.endGen = 0 ∨ gen < m.endGen) := by
  simp [aliveAt]

theorem covers_iff : e.covers addr = true ↔ e.start ≤ addr ∧ addr < e.stop := by
  simp [MapEvent.covers]

theorem mem_apply_maps (s : ProcMapsSnapshot) : p ∈ (s.apply e).maps ↔
    (∃ m ∈ s.maps, p ∈ m.pieces e.start e.stop e.gen) ∨
      ∃ new, e.new = some new ∧ p = newMapping e.gen e.start e.stop new := by
  unfold apply
  split
  · rename_i new hnew
    simp only [applyCreate, mem_insertSorted, endRangeAtGen_maps, mem_flatMap,
      hnew, some.injEq, exists_eq_left']
    exact or_comm
  · rename_i hnone
    simp [applyDestroyRange, endRangeAtGen_maps, mem_flatMap, hnone]

theorem apply_gen (s : ProcMapsSnapshot) : (s.apply e).gen = e.gen := by
  unfold apply
  split <;> rfl

theorem apply_staircase (h : Inv t) (hok : t.Orderly e) (hrange : e.start < e.stop)
    (hgen : e.gen ≠ 0) : Staircase (t.snapshot.apply e).maps := by
  obtain ⟨hclean, hfits⟩ := hok
  have hpieces := endRange_staircase h.stairs hclean hrange hgen
  unfold apply
  split
  · rename_i new hnew
    rw [applyCreate, endRangeAtGen_maps]
    refine insertSorted_staircase hpieces fun q hq => ?_
    obtain ⟨c, hc, hq⟩ := mem_flatMap.mp hq
    exact new_fits (hfits (by simp [hnew])) hclean hrange hgen hc (h.nonempty c hc) hq ⟨rfl, rfl⟩
  · rw [applyDestroyRange, endRangeAtGen_maps]
    exact hpieces

theorem aliveAt_piece (hp : PieceOf m start stop gen p) (hlt : at' < gen) :
    p.aliveAt at' = true ↔ m.aliveAt at' = true := by
  have hstart := hp.startGen
  have hended := hp.ended
  simp only [aliveAt_iff]
  grind

/-- From the event on a piece is there if it was there and is not in the range. -/
theorem aliveAt_piece_after (hp : PieceOf m start stop gen p) (hle : gen ≤ at')
    (hm : m.startGen < gen ∧ m.endGen < gen) :
    p.aliveAt at' = true ↔ m.endGen = 0 ∧ p.endGen = 0 := by
  have hstart := hp.startGen
  have hended := hp.ended
  simp only [aliveAt_iff]
  grind

theorem step_inv (h : Inv t) (hok : t.Orderly e) (hs : t.step e = some t') : Inv t' := by
  unfold step at hs
  split at hs
  · rename_i hdom
    obtain ⟨hlt, hrange⟩ := hdom
    cases hs
    have hgen : e.gen ≠ 0 := by grind
    have hgens : ∀ m ∈ t.snapshot.maps, m.startGen < e.gen ∧ m.endGen < e.gen := by
      intro m hm
      have := h.gens m hm
      grind
    refine ⟨apply_staircase h hok hrange hgen, fun p hp => ?_, fun p hp => ?_, ?_,
      fun p hp addr gen hc ha => ?_, fun addr gen hge hsome => ?_⟩
    · rcases (mem_apply_maps _).mp hp with ⟨m, hm, hp⟩ | ⟨new, -, rfl⟩
      · exact (pieceOf_of_mem hp).nonempty hrange (h.nonempty m hm)
      · exact hrange
    · rw [apply_gen]
      rcases (mem_apply_maps _).mp hp with ⟨m, hm, hp⟩ | ⟨new, -, rfl⟩
      · have hpm := pieceOf_of_mem hp
        have := hpm.startGen
        have := hpm.ended
        grind
      · exact ⟨UInt32.le_refl _, UInt32.zero_le⟩
    · rw [apply_gen]
      grind
    · simp only
      rcases (mem_apply_maps _).mp hp with ⟨m, hm, hp⟩ | ⟨new, hnew, rfl⟩
      · have hpm := pieceOf_of_mem hp
        have hcm : m.contains addr = true := by
          rw [contains_iff] at hc ⊢
          have := hpm.within
          grind
        rw [hpm.backing]
        split
        · rename_i hbefore
          exact h.sound m hm addr gen hcm ((aliveAt_piece hpm hbefore).mp ha)
        · rename_i hafter
          obtain ⟨hactive, hend⟩ :=
            (aliveAt_piece_after hpm (UInt32.not_lt.mp hafter) (hgens m hm)).mp ha
          have hout : ¬ e.covers addr = true := by
            rw [covers_iff]
            rw [contains_iff] at hc
            have := hpm.ended
            grind
          rw [MapEvent.apply, if_neg hout]
          refine h.sound m hm addr _ hcm (aliveAt_iff.mpr ⟨(h.gens m hm).1, .inl hactive⟩)
      · have hafter : ¬ gen < e.gen := UInt32.not_lt.mpr (aliveAt_iff.mp ha).1
        have hin : e.covers addr = true := hc
        rw [if_neg hafter, MapEvent.apply, if_pos hin, hnew]
        rfl
    · simp only at hsome
      split at hsome
      · rename_i hbefore
        obtain ⟨m, hm, hc, ha⟩ := h.complete addr gen hge hsome
        obtain ⟨p, hp, hcp, -⟩ := exists_piece e.start e.stop e.gen hc
        exact ⟨p, (mem_apply_maps _).mpr (.inl ⟨m, hm, hp⟩), hcp,
          (aliveAt_piece (pieceOf_of_mem hp) hbefore).mpr ha⟩
      · rename_i hafter
        have hafter := UInt32.not_lt.mp hafter
        unfold MapEvent.apply at hsome
        split at hsome
        · rename_i hin
          obtain ⟨new, hnew⟩ := isSome_iff_exists.mp (by simpa using hsome)
          exact ⟨_, (mem_apply_maps _).mpr (.inr ⟨new, hnew, rfl⟩), hin,
            aliveAt_iff.mpr ⟨hafter, .inl rfl⟩⟩
        · rename_i hout
          obtain ⟨m, hm, hc, ha⟩ := h.complete addr _ h.first hsome
          have hactive : m.endGen = 0 := by
            have := h.gens m hm
            rw [aliveAt_iff] at ha
            grind
          obtain ⟨p, hp, hcp, hend⟩ :=
            exists_piece e.start e.stop e.gen hc
          rw [if_neg fun hin => hout (covers_iff.mpr hin.2)] at hend
          exact ⟨p, (mem_apply_maps _).mpr (.inl ⟨m, hm, hp⟩), hcp,
            (aliveAt_piece_after (pieceOf_of_mem hp) hafter (hgens m hm)).mpr
              ⟨hactive, hend.trans hactive⟩⟩
  · cases hs

theorem Inv.exact (h : Inv t) : Exact t := by
  intro addr gen hge _
  obtain ⟨hfound, hnone⟩ := findMappingAtGen_spec addr gen h.stairs
  have hmatch : ∀ m, t.snapshot.findMappingAtGen addr gen = some m →
      m ∈ t.snapshot.maps ∧ m.contains addr = true ∧ m.aliveAt gen = true := by
    intro m hm
    obtain ⟨hin, hmatch⟩ := hfound m hm
    exact ⟨hin, Bool.and_eq_true_iff.mp hmatch⟩
  refine ⟨fun m hm => (hmatch m hm).2.1, ?_⟩
  cases hfind : t.snapshot.findMappingAtGen addr gen with
  | some m =>
    obtain ⟨hin, hc, ha⟩ := hmatch m hfind
    exact (h.sound m hin addr gen hc ha).symm
  | none =>
    by_contra hne
    obtain ⟨m, hin, hc, ha⟩ := h.complete addr gen hge (isSome_iff_ne_none.mpr (Ne.symm hne))
    have := hnone hfind m hin
    simp [isMatch, hc, ha] at this

/-- The lines of `/proc/pid/maps`: none empty, each behind the one before. -/
def Listed (lines : List MapsLine) : Prop :=
  (∀ it ∈ lines, it.start < it.stop) ∧ lines.Pairwise fun it it' => it.stop ≤ it'.start

theorem initial_inv (hlines : Listed lines) : Inv (initial lines) := by
  obtain ⟨hne, hsorted⟩ := hlines
  have hmem : ∀ m ∈ (initial lines).snapshot.maps,
      m.start < m.stop ∧ m.startGen = 1 ∧ m.endGen = 0 := by
    intro m hm
    obtain ⟨it, hit, rfl⟩ := mem_map.mp hm
    exact ⟨hne it hit, rfl, rfl⟩
  have hdisjoint : (initial lines).snapshot.maps.Pairwise fun m c => m.stop ≤ c.start :=
    pairwise_map.mpr hsorted
  have halive : ∀ m ∈ (initial lines).snapshot.maps, ∀ gen, 1 ≤ gen → m.aliveAt gen = true := by
    intro m hm gen hge
    obtain ⟨-, hstart, hend⟩ := hmem m hm
    exact aliveAt_iff.mpr ⟨hstart ▸ hge, .inl hend⟩
  refine ⟨hdisjoint.imp_of_mem fun hm hc hle => ?_, fun m hm => (hmem m hm).1, fun m hm => ?_,
    UInt32.le_refl _, fun m hm addr gen hc _ => ?_, fun addr gen hge hsome => ?_⟩
  · unfold Before
    grind
  · obtain ⟨-, hstart, hend⟩ := hmem m hm
    rw [hstart, hend]
    exact ⟨UInt32.le_refl _, UInt32.zero_le⟩
  · have hfind : (initial lines).snapshot.maps.find? (fun c => c.contains addr) = some m := by
      refine find?_eq_of_unique hm hc fun c hin hcc => ?_
      by_contra hne
      -- of two lines that contain the address, one would be behind the other
      have := pairwise_or hdisjoint hin hm hne
      rw [contains_iff] at hc hcc
      grind
    simp only [initial] at hfind ⊢
    rw [hfind]
    rfl
  · simp only [initial, isSome_map, find?_isSome] at hsome
    obtain ⟨m, hm, hc⟩ := hsome
    exact ⟨m, hm, hc, halive m hm gen hge⟩

/-- Throughout an orderly run lookups are exact, at every generation so far. -/
theorem exact_of_orderly (lines : List MapsLine) (es : List MapEvent) (hlines : Listed lines)
    (hok : Machine.EachStep step Orderly (initial lines) es) :
    Machine.Always step Exact (initial lines) es :=
  (Machine.always_of_eachStep (fun _ _ _ h hok hs => step_inv h hok hs)
    (initial_inv hlines) hok).mono fun _ => Inv.exact

def oneLine : List MapsLine := [⟨0x1000, 0x4000, 0, "r-xp", ⟨8, 1⟩, 7, "/lib/a.so"⟩]

/-- The end of a mapping goes, something else comes in its place and goes again. -/
def replacedTail : List MapEvent :=
  [⟨2, 0x3000, 0x4000, none⟩, ⟨3, 0x3000, 0x4000, some ⟨0x2000, 3, ⟨8, 1⟩, 9, "/lib/b.so"⟩⟩,
    ⟨4, 0x5000, 0x6000, some ⟨0, 3, ⟨0, 0⟩, 0, ""⟩⟩, ⟨5, 0x3000, 0x4000, none⟩]

instance (lines : List MapsLine) : Decidable (Listed lines) :=
  inferInstanceAs (Decidable (_ ∧ _))

theorem exact_of_orderly_replacedTail :
    Listed oneLine ∧ Machine.EachStep step Orderly (initial oneLine) replacedTail ∧
      Machine.Always step Exact (initial oneLine) replacedTail :=
  ⟨by decide, by decide, exact_of_orderly oneLine replacedTail (by decide) (by decide)⟩

/-- The beginning of a mapping goes. The part that is dead is inserted behind the part that
is not, and the search for an address in it turns the wrong way. -/
theorem head_lost : Listed oneLine ∧
    ∃ h, Machine.exec step (initial oneLine) [⟨2, 0x1000, 0x2000, none⟩] = some h ∧
      h.space 1 0x1800 = some ⟨"/lib/a.so", ⟨8, 1⟩, 7, 0x800⟩ ∧
      h.snapshot.findMappingAtGen 0x1800 1 = none ∧ ¬ Exact h := by
  refine ⟨by decide, _, rfl, by decide, by decide, fun hexact => ?_⟩
  have heq := (hexact 0x1800 1 (by decide) (by decide)).2
  revert heq
  decide

end MapHistory

end FridaCore.Linux
