import FridaCore.Barebone.PageTables

/-!
# The cache of table walks

`find_level3_table` of `src/barebone/arch-arm64/machine.vala` starts its walk at a table that an
earlier walk came through, if the cache has one for the address. Tables of all levels are in the
one map, under addresses without their lower bits, so what is found may be of another level.
-/

namespace FridaCore.Barebone.Arm64

structure TableWalkResult where
  tablePa : Nat
  level : Nat
  deriving DecidableEq, Repr

abbrev TableWalkCache := Nat → Option TableWalkResult

namespace TableWalkCache

def computeCacheKey (va level : Nat) (p : MMUParameters) : Nat :=
  let shift := addressShiftAtLevel (level + 1) p.granule
  (va >>> shift) <<< shift

def lookup (cache : TableWalkCache) (va : Nat) (p : MMUParameters) : Option TableWalkResult :=
  (List.range' p.firstLevel (3 - p.firstLevel)).reverse.findSome? fun level =>
    cache (computeCacheKey va level p)

def store (cache : TableWalkCache) (va level tablePa : Nat) (p : MMUParameters) :
    TableWalkCache :=
  if level ≥ 3 then cache
  else Function.update cache (computeCacheKey va level p) (some ⟨tablePa, level⟩)

end TableWalkCache

open TableWalkCache

variable (mem : Memory) (p : MMUParameters)

def walkIndex (va level : Nat) : Nat :=
  ((va >>> addressShiftAtLevel level p.granule) &&& (computeMaxEntries level p - 1)) % 2 ^ 32

/-- The table is at level `3 - below`. The cache changes even if the walk fails. -/
def walkToLevel3 (va : Nat) :
    (below tablePa : Nat) → TableWalkCache → Except Error Nat × TableWalkCache
  | 0, tablePa, cache => (.ok tablePa, cache)
  | below + 1, tablePa, cache =>
    let level := 3 - (below + 1)
    let cache := cache.store va level tablePa p
    let desc := descriptorAt mem p level tablePa (walkIndex p va level)
    if desc.kind ≠ .table then
      (.error (.notSupported ("Walk failed at level " ++ toString level)), cache)
    else walkToLevel3 va below desc.targetAddress cache

def findLevel3Table (va : Nat) (cache : TableWalkCache) :
    Except Error Nat × TableWalkCache :=
  match cache.lookup va p with
  | some cached => walkToLevel3 mem p va (3 - cached.level) cached.tablePa cache
  | none => walkToLevel3 mem p va (3 - p.firstLevel) p.tt1 cache

/-- One address after the other, with the same cache. -/
def findLevel3Tables : List Nat → TableWalkCache → List (Except Error Nat)
  | [], _ => []
  | va :: rest, cache =>
    let (result, cache) := findLevel3Table mem p va cache
    result :: findLevel3Tables rest cache

def walkUncached (va : Nat) : Except Error Nat :=
  (walkToLevel3 mem p va (3 - p.firstLevel) p.tt1 fun _ => none).1

/-- The bits by which the tables down to level 2 are chosen. -/
def upperVa (va : Nat) : Nat := va >>> addressShiftAtLevel 1 p.granule

/-- From this table the walk can be taken up, also for the other addresses that come to it. -/
def Resumes (va below tablePa : Nat) : Prop :=
  ∀ va' cache, upperVa p va' = upperVa p va →
    (walkToLevel3 mem p va' below tablePa cache).1 = walkUncached mem p va'

def Sound (cache : TableWalkCache) : Prop :=
  ∀ key cached, cache key = some cached → Resumes mem p key (3 - cached.level) cached.tablePa

variable {mem p} {cache : TableWalkCache}

theorem walk_result_eq (below tablePa : Nat) (cache cache' : TableWalkCache) :
    (walkToLevel3 mem p va below tablePa cache).1 =
      (walkToLevel3 mem p va below tablePa cache').1 := by
  induction below generalizing tablePa cache cache' with
  | zero => rfl
  | succ below ih =>
    simp only [walkToLevel3]
    split
    · rfl
    · exact ih ..

theorem addressShift_le (h : level ≤ level') (g : Granule) :
    addressShiftAtLevel level' g ≤ addressShiftAtLevel level g := by
  refine antitone_nat_of_succ_le (f := (addressShiftAtLevel · g)) (fun level => ?_) h
  simp only [addressShiftAtLevel]
  rcases Nat.lt_or_ge level 3 with h | h
  · rw [show 3 - level = 3 - (level + 1) + 1 by omega, List.range'_succ]
    simp
  · simp [show 3 - level = 0 by omega, show 3 - (level + 1) = 0 by omega]

theorem upperVa_computeCacheKey (va level : Nat) :
    upperVa p (computeCacheKey va level p) = upperVa p va := by
  rw [upperVa, upperVa, computeCacheKey,
    ← Nat.add_sub_of_le (addressShift_le (Nat.le_add_left 1 level) p.granule),
    Nat.shiftRight_add, Nat.shiftRight_add, Nat.shiftLeft_shiftRight]

theorem walkIndex_eq (h : upperVa p va = upperVa p va') (hl : level ≤ 1) :
    walkIndex p va level = walkIndex p va' level := by
  unfold walkIndex
  rw [← Nat.add_sub_of_le (addressShift_le hl p.granule), Nat.shiftRight_add, Nat.shiftRight_add,
    ← upperVa, ← upperVa, h]

theorem Resumes.next (h : Resumes mem p va (below + 2) tablePa)
    (htable : (descriptorAt mem p (3 - (below + 2)) tablePa
      (walkIndex p va (3 - (below + 2)))).kind = .table) :
    Resumes mem p va (below + 1) (descriptorAt mem p (3 - (below + 2)) tablePa
      (walkIndex p va (3 - (below + 2)))).targetAddress := by
  intro va' cache hva
  have hwhole := h va' cache hva
  rw [walkToLevel3, walkIndex_eq hva (by omega), if_neg (not_not.mpr htable)] at hwhole
  rw [← hwhole]
  exact walk_result_eq ..

theorem Sound.store (hs : Sound mem p cache) (h : Resumes mem p va (3 - level) tablePa) :
    Sound mem p (cache.store va level tablePa p) := by
  unfold TableWalkCache.store
  split
  · exact hs
  · intro key cached hkey
    rw [Function.update_apply] at hkey
    split at hkey
    · rename_i heq
      cases hkey
      intro va' cache hva
      rw [heq, upperVa_computeCacheKey] at hva
      exact h va' cache hva
    · exact hs key cached hkey

theorem Sound.walk (hs : Sound mem p cache) (hb : below ≤ 3)
    (h : Resumes mem p va below tablePa) :
    Sound mem p (walkToLevel3 mem p va below tablePa cache).2 := by
  induction below generalizing tablePa cache with
  | zero => exact hs
  | succ below ih =>
    have hstore : Sound mem p (cache.store va (3 - (below + 1)) tablePa p) :=
      hs.store (by rwa [Nat.sub_sub_self hb])
    simp only [walkToLevel3]
    split
    · exact hstore
    · rename_i htable
      cases below with
      | zero => exact hstore
      | succ below => exact ih hstore (by omega) (h.next (not_not.mp htable))

theorem findLevel3Table_spec (hs : Sound mem p cache) (va : Nat) :
    (findLevel3Table mem p va cache).1 = walkUncached mem p va ∧
      Sound mem p (findLevel3Table mem p va cache).2 := by
  have hstart : ∀ {below tablePa}, below ≤ 3 → Resumes mem p va below tablePa →
      (walkToLevel3 mem p va below tablePa cache).1 = walkUncached mem p va ∧
        Sound mem p (walkToLevel3 mem p va below tablePa cache).2 :=
    fun hb h => ⟨h va cache rfl, hs.walk hb h⟩
  unfold findLevel3Table
  split
  · rename_i cached hcached
    obtain ⟨level, -, hkey⟩ := List.exists_of_findSome?_eq_some hcached
    refine hstart (by omega) fun va' cache hva => hs _ _ hkey va' cache ?_
    rw [hva, upperVa_computeCacheKey]
  · exact hstart (by omega) fun va' cache _ => walk_result_eq ..

theorem findLevel3Tables_eq (hs : Sound mem p cache) (vas : List Nat) :
    findLevel3Tables mem p vas cache = vas.map (walkUncached mem p) := by
  induction vas generalizing cache with
  | nil => rfl
  | cons va rest ih =>
    obtain ⟨hresult, hsound⟩ := findLevel3Table_spec hs va
    rw [List.map_cons, ← hresult, ← ih hsound]
    rfl

/-- Every lookup gives what the walk from TTBR1 without a cache gives. -/
theorem findLevel3Tables_uncached (mem : Memory) (p : MMUParameters) (vas : List Nat) :
    findLevel3Tables mem p vas (fun _ => none) = vas.map (walkUncached mem p) := by
  refine findLevel3Tables_eq (fun key cached h => ?_) vas
  cases h

end FridaCore.Barebone.Arm64
