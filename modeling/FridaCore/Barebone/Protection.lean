import FridaCore.Barebone.PageTables
import FridaCore.Support.Except

/-!
# Changing the protection of a page

`apply_protection_bits` of `src/barebone/arch-arm64/machine.vala`. With SPRR, the four
bits of a descriptor that tell its protection are an index into the permissions register,
and a slot that has the permissions is searched for. What the slots mean is written down
twice in the source, here and in `protection_from_flags`, and in two different ways.
-/

namespace FridaCore.Barebone.Arm64

open Descriptor

def uxnBit : UInt64 := (1 : UInt64) <<< 54
def pxnBit : UInt64 := (1 : UInt64) <<< 53
def ap1Bit : UInt64 := (1 : UInt64) <<< 7
def ap0Bit : UInt64 := (1 : UInt64) <<< 6

def PageProtection.value (prot : PageProtection) : Nat :=
  prot.read.toNat + 2 * prot.write.toNat + 4 * prot.execute.toNat

def applyNonSprrProtectionBits (descriptor : UInt64) (prot : PageProtection) : UInt64 :=
  let result :=
    if prot.execute then descriptor &&& ~~~(uxnBit ||| pxnBit)
    else descriptor ||| (uxnBit ||| pxnBit)
  if prot.write then result &&& ~~~(ap1Bit ||| ap0Bit)
  else (result ||| ap1Bit) &&& ~~~ap0Bit

def slotPerm (p : MMUParameters) (i : Nat) : Nat := (p.sprrPerm >>> (i * 4)) &&& 0xf

/-- What `find_sprr_index_for_permissions` takes some permissions for. -/
def slotAllows (perm : Nat) : PageProtection :=
  match perm &&& 3 with
  | 0 => {}
  | 1 => { execute := true, read := perm >>> 2 ≠ 2 }
  | 2 => { read := true }
  | _ => { read := true, write := perm >>> 2 ≠ 1 }

def findSprrIndexForPermissions (prot : PageProtection) (p : MMUParameters) : Except Error Nat :=
  match (List.range 16).find? fun i => slotAllows (slotPerm p i) = prot with
  | some i => .ok i
  | none => .error (.invalidArgument
      s!"No suitable SPRR slot found for protection 0x{prot.value}")

def applySprrIndexToDescriptor (descriptor : UInt64) (sprrIndex : Nat) : UInt64 :=
  let result := descriptor &&& ~~~(ap1Bit ||| ap0Bit ||| uxnBit ||| pxnBit)
  let result := if sprrIndex &&& 0x8 ≠ 0 then result ||| ap1Bit else result
  let result := if sprrIndex &&& 0x4 ≠ 0 then result ||| ap0Bit else result
  let result := if sprrIndex &&& 0x2 ≠ 0 then result ||| uxnBit else result
  if sprrIndex &&& 0x1 ≠ 0 then result ||| pxnBit else result

def applyProtectionBits (descriptor : UInt64) (prot : PageProtection) (p : MMUParameters) :
    Except Error UInt64 :=
  if p.sprrEnabled then
    (findSprrIndexForPermissions prot p).map (applySprrIndexToDescriptor descriptor)
  else .ok (applyNonSprrProtectionBits descriptor prot)

def IsProtectionBit (i : Nat) : Prop := i = 6 ∨ i = 7 ∨ i = 53 ∨ i = 54

instance : DecidablePred IsProtectionBit := fun _ => inferInstanceAs (Decidable (_ ∨ _))

def bitAt (a : UInt64) (i : Nat) : Bool := a.toNat.testBit i

theorem flag_eq (a : UInt64) (i : Nat) : flag a.toNat i = bitAt a i := by
  simp [flag, bitAt, Nat.testBit, Nat.and_comm]

@[simp] theorem bitAt_uxnBit (i : Nat) : bitAt uxnBit i = decide (54 = i) :=
  @Nat.testBit_two_pow 54 i

@[simp] theorem bitAt_pxnBit (i : Nat) : bitAt pxnBit i = decide (53 = i) :=
  @Nat.testBit_two_pow 53 i

@[simp] theorem bitAt_ap1Bit (i : Nat) : bitAt ap1Bit i = decide (7 = i) :=
  @Nat.testBit_two_pow 7 i

@[simp] theorem bitAt_ap0Bit (i : Nat) : bitAt ap0Bit i = decide (6 = i) :=
  @Nat.testBit_two_pow 6 i

@[simp] theorem bitAt_clear (a mask : UInt64) (i : Nat) :
    bitAt (a &&& ~~~mask) i = (bitAt a i && !bitAt mask i) := by
  have hbits : (a &&& ~~~mask).toBitVec.getLsbD i =
      (a.toBitVec.getLsbD i && !mask.toBitVec.getLsbD i) := by
    by_cases hi : i < 64
    · simp [hi]
    · simp [BitVec.getLsbD_of_ge _ _ (Nat.le_of_not_lt hi)]
  exact hbits

@[simp] theorem bitAt_or (a b : UInt64) (i : Nat) :
    bitAt (a ||| b) i = (bitAt a i || bitAt b i) := by
  rw [bitAt, UInt64.toNat_or, Nat.testBit_or]
  rfl

def OnlyProtectionDiffers (before after : UInt64) : Prop :=
  ∀ i, ¬IsProtectionBit i → bitAt after i = bitAt before i

theorem onlyProtectionDiffers_nonSprr (descriptor : UInt64) (prot : PageProtection) :
    OnlyProtectionDiffers descriptor (applyNonSprrProtectionBits descriptor prot) := by
  intro i hi
  simp only [IsProtectionBit, not_or] at hi
  obtain ⟨h6, h7, h53, h54⟩ := hi
  simp only [applyNonSprrProtectionBits]
  split <;> split <;>
    simp [Ne.symm h6, Ne.symm h7, Ne.symm h53, Ne.symm h54]

theorem bitAt_applySprrIndex (descriptor : UInt64) (index i : Nat) :
    bitAt (applySprrIndexToDescriptor descriptor index) i =
      if i = 7 then decide (index &&& 0x8 ≠ 0)
      else if i = 6 then decide (index &&& 0x4 ≠ 0)
      else if i = 54 then decide (index &&& 0x2 ≠ 0)
      else if i = 53 then decide (index &&& 0x1 ≠ 0)
      else bitAt descriptor i := by
  simp only [applySprrIndexToDescriptor]
  split <;> split <;> split <;> split <;> grind [bitAt_or, bitAt_clear, bitAt_uxnBit,
    bitAt_pxnBit, bitAt_ap1Bit, bitAt_ap0Bit]

theorem sprrIndex_applySprrIndex (descriptor : UInt64) (index : Nat) (h : index < 16) :
    sprrIndex (blockFlags (applySprrIndexToDescriptor descriptor index).toNat) =
      index := by
  have hall : ∀ index : Fin 16,
      ((decide (index.val &&& 0x8 ≠ 0)).toNat <<< 3 |||
        (decide (index.val &&& 0x4 ≠ 0)).toNat <<< 2 |||
        (decide (index.val &&& 0x2 ≠ 0)).toNat <<< 1 |||
        (decide (index.val &&& 0x1 ≠ 0)).toNat) = index.val := by
    decide
  simpa [sprrIndex, blockFlags, flag_eq, bitAt_applySprrIndex] using hall ⟨index, h⟩

theorem slotPerm_lt (p : MMUParameters) (i : Nat) : slotPerm p i < 16 :=
  Nat.lt_of_le_of_lt Nat.and_le_right (by decide)

/-- The two readings of the permissions agree except on 7, which the search takes for
readable and `protection_from_flags` for no access. -/
theorem protectionFromFlags_sprr (flags : DescriptorFlags) (h : p.sprrEnabled) :
    protectionFromFlags flags p =
      if slotPerm p (sprrIndex flags) = 7 then {}
      else slotAllows (slotPerm p (sprrIndex flags)) := by
  have hall : ∀ perm : Fin 16,
      (match perm.val &&& 3 with
        | 0 => ({} : PageProtection)
        | 1 =>
          if perm.val >>> 2 = 2 then { execute := true } else { read := true, execute := true }
        | 2 => { read := true }
        | _ => if perm.val >>> 2 = 1 then {} else { read := true, write := true }) =
        if perm.val = 7 then {} else slotAllows perm.val := by
    decide
  simp only [protectionFromFlags, h, if_true]
  exact hall ⟨slotPerm p (sprrIndex flags), slotPerm_lt p _⟩

theorem mapped_iff (a : UInt64) : a.toNat &&& 3 = 3 ↔ bitAt a 0 = true ∧ bitAt a 1 = true := by
  have hmod : a.toNat &&& 3 = a.toNat % 4 := Nat.and_two_pow_sub_one_eq_mod a.toNat 2
  simp only [hmod, bitAt, Nat.testBit_eq_decide_div_mod_eq, decide_eq_true_eq]
  omega

theorem OnlyProtectionDiffers.parse_flags (h : OnlyProtectionDiffers before after)
    (hvalid : (parse before.toNat 3 granule).kind = .block) :
    (parse after.toNat 3 granule).flags = blockFlags after.toNat := by
  have hbefore : before.toNat &&& 3 = 3 := by
    by_contra hunmapped
    simp [parse, hunmapped] at hvalid
  have hafter : after.toNat &&& 3 = 3 := by
    rw [mapped_iff] at hbefore ⊢
    rw [h 0 (by decide), h 1 (by decide)]
    exact hbefore
  simp [parse, hafter]

theorem onlyProtectionDiffers_sprr (descriptor : UInt64) (index : Nat) :
    OnlyProtectionDiffers descriptor (applySprrIndexToDescriptor descriptor index) := by
  intro i hi
  simp only [IsProtectionBit, not_or] at hi
  simp [bitAt_applySprrIndex, hi]

theorem onlyProtectionDiffers_apply (h : applyProtectionBits descriptor prot p = .ok result) :
    OnlyProtectionDiffers descriptor result := by
  unfold applyProtectionBits at h
  split at h
  · obtain ⟨index, -, rfl⟩ := map_eq_ok h
    exact onlyProtectionDiffers_sprr descriptor index
  · cases h
    exact onlyProtectionDiffers_nonSprr descriptor prot

theorem protectionFromFlags_nonSprr (descriptor : UInt64) (h : p.sprrEnabled = false)
    (hread : prot.read = true) :
    protectionFromFlags
      (blockFlags (applyNonSprrProtectionBits descriptor prot).toNat) p = prot := by
  obtain ⟨read, write, execute⟩ := prot
  subst hread
  simp only [protectionFromFlags, h, Bool.false_eq_true, if_false, blockFlags, flag_eq]
  cases write <;> cases execute <;> simp [applyNonSprrProtectionBits]

theorem findSprrIndex_eq_ok (prot : PageProtection) (p : MMUParameters) :
    findSprrIndexForPermissions prot p = .ok i ↔
      i < 16 ∧ slotAllows (slotPerm p i) = prot ∧ ∀ j < i, slotAllows (slotPerm p j) ≠ prot := by
  have hfind : findSprrIndexForPermissions prot p = .ok i ↔
      (List.range 16).find? (fun i => slotAllows (slotPerm p i) = prot) = some i := by
    unfold findSprrIndexForPermissions
    cases (List.range 16).find? fun i => slotAllows (slotPerm p i) = prot with
    | none | some j => simp
  rw [hfind, List.find?_range_eq_some]
  grind

theorem slotAllows_eq_read (h : perm < 16) :
    slotAllows perm = { read := true } ↔ perm &&& 3 = 2 ∨ perm = 7 := by
  have hall : ∀ perm : Fin 16,
      slotAllows perm.val = { read := true } ↔ perm.val &&& 3 = 2 ∨ perm.val = 7 := by
    decide
  exact hall ⟨perm, h⟩

/-- What is asked of the permissions register: where a slot has the permissions 7, an
earlier one is readable only. -/
def SevenShadowed (p : MMUParameters) : Prop :=
  ∀ i < 16, slotPerm p i = 7 → ∃ j < i, slotPerm p j &&& 3 = 2

instance : Decidable (SevenShadowed p) := by
  unfold SevenShadowed
  infer_instance

theorem found_ne_seven_iff (hread : prot.read = true) :
    (∀ i, findSprrIndexForPermissions prot p = .ok i → slotPerm p i ≠ 7) ↔
      (prot = { read := true } → SevenShadowed p) := by
  have hseven : slotAllows 7 = { read := true } := by decide
  constructor
  · rintro h rfl i hi hperm
    -- the first slot the search takes for readable only is not this one
    have hex : ∃ k, slotAllows (slotPerm p k) = { read := true } := ⟨i, by rw [hperm, hseven]⟩
    have hle : Nat.find hex ≤ i := Nat.find_min' hex (by rw [hperm, hseven])
    have hfound : findSprrIndexForPermissions { read := true } p = .ok (Nat.find hex) :=
      (findSprrIndex_eq_ok _ p).mpr
        ⟨Nat.lt_of_le_of_lt hle hi, Nat.find_spec hex, fun j hj => Nat.find_min hex hj⟩
    have hne := h _ hfound
    have hlt : Nat.find hex < i := lt_of_le_of_ne hle fun heq => hne (heq ▸ hperm)
    rcases (slotAllows_eq_read (slotPerm_lt p _)).mp (Nat.find_spec hex) with hreadable | h7
    · exact ⟨_, hlt, hreadable⟩
    · exact absurd h7 hne
  · intro h i hfound hperm
    rw [findSprrIndex_eq_ok] at hfound
    obtain ⟨hi, hallows, hfirst⟩ := hfound
    rw [hperm, hseven] at hallows
    subst hallows
    obtain ⟨j, hj, hreadable⟩ := h rfl i hi hperm
    exact hfirst j hj ((slotAllows_eq_read (slotPerm_lt p j)).mpr (.inl hreadable))

theorem protectionFromFlags_found (hsprr : p.sprrEnabled) (hread : prot.read = true)
    (h : findSprrIndexForPermissions prot p = .ok i) :
    protectionFromFlags (blockFlags (applySprrIndexToDescriptor descriptor i).toNat) p =
      prot ↔ slotPerm p i ≠ 7 := by
  obtain ⟨hi, hallows, -⟩ := (findSprrIndex_eq_ok prot p).mp h
  rw [protectionFromFlags_sprr _ hsprr, sprrIndex_applySprrIndex descriptor i hi, hallows]
  by_cases hperm : slotPerm p i = 7
  · simp only [hperm, if_true, ne_eq, not_true_eq_false, iff_false]
    rintro rfl
    cases hread
  · simp [hperm]

/-- A protection that includes reading is read back as it has been applied, and nothing
else of the descriptor changes, if and only if, with SPRR and for pages that are to be
readable only, no slot with the permissions 7 comes before every readable one. -/
theorem protection_readBack_iff (p : MMUParameters) (descriptor : UInt64)
    (hvalid : (parse descriptor.toNat 3 p.granule).kind = .block)
    (prot : PageProtection) (hread : prot.read = true) :
    (∀ result, applyProtectionBits descriptor prot p = .ok result →
      OnlyProtectionDiffers descriptor result ∧
        protectionFromFlags (parse result.toNat 3 p.granule).flags p = prot) ↔
      (p.sprrEnabled → prot = { read := true } → SevenShadowed p) := by
  have hflags : ∀ result, applyProtectionBits descriptor prot p = .ok result →
      (parse result.toNat 3 p.granule).flags = blockFlags result.toNat :=
    fun result h => (onlyProtectionDiffers_apply h).parse_flags hvalid
  cases hsprr : p.sprrEnabled with
  | false =>
    refine iff_of_true (fun result h => ⟨onlyProtectionDiffers_apply h, ?_⟩) (by simp)
    rw [hflags result h]
    simp only [applyProtectionBits, hsprr, Bool.false_eq_true, if_false, Except.ok.injEq] at h
    rw [← h]
    exact protectionFromFlags_nonSprr descriptor hsprr hread
  | true =>
    have happly : ∀ result, applyProtectionBits descriptor prot p = .ok result ↔
        ∃ i, findSprrIndexForPermissions prot p = .ok i ∧
          applySprrIndexToDescriptor descriptor i = result := by
      simp only [applyProtectionBits, hsprr, if_true]
      cases findSprrIndexForPermissions prot p <;> simp [Except.map]
    simp only [forall_const]
    rw [← found_ne_seven_iff hread]
    constructor
    · intro h i hi
      have hresult := (happly _).mpr ⟨i, hi, rfl⟩
      obtain ⟨-, hback⟩ := h _ hresult
      rw [hflags _ hresult] at hback
      exact (protectionFromFlags_found hsprr hread hi).mp hback
    · intro h result hresult
      refine ⟨onlyProtectionDiffers_apply hresult, ?_⟩
      rw [hflags result hresult]
      obtain ⟨i, hi, rfl⟩ := (happly result).mp hresult
      exact (protectionFromFlags_found hsprr hread hi).mpr (h i hi)

def sprrParameters (sprrPerm : Nat) : MMUParameters where
  granule := .g16K
  firstLevel := 1
  upperBits := 0
  tt1 := 0
  t1sz := 17
  sprrEnabled := true
  sprrPerm := sprrPerm

/-- Slot 0 is readable only; slot 1 has the permissions 7 behind it. -/
theorem protection_readBack_iff_readable :
    applyProtectionBits 0x403 { read := true } (sprrParameters 0x72) = .ok 0x403 ∧
      protectionFromFlags (parse 0x403 3 .g16K).flags (sprrParameters 0x72) =
        { read := true } := by
  have hresult : applyProtectionBits 0x403 { read := true } (sprrParameters 0x72) = .ok 0x403 := by
    decide +kernel
  refine ⟨hresult, ?_⟩
  exact ((protection_readBack_iff (sprrParameters 0x72) 0x403 (by decide) { read := true } rfl).mpr
    (fun _ _ => by decide) _ hresult).2

/-- Slot 0 has the permissions 7: a page that is made readable has no access. -/
theorem readable_page_inaccessible :
    (parse 0x403 3 .g16K).kind = .block ∧
      applyProtectionBits 0x403 { read := true } (sprrParameters 0x7) = .ok 0x403 ∧
      protectionFromFlags (parse 0x403 3 .g16K).flags (sprrParameters 0x7) = {} := by
  decide +kernel

end FridaCore.Barebone.Arm64
