import FridaCore.Packages.Semver

/-!
# Versions as text

A version that has been parsed is printed as text that parses to the same
version, so whatever the code writes as a version it can read back.
-/

namespace FridaCore.Packages

open List

open Text

namespace Semver

variable {c : Char} {n : Nat}

theorem digit_cases (h : c.isDigit = true) : 48 ≤ c.toNat ∧ c.toNat ≤ 57 := by
  simp only [Char.isDigit, Bool.and_eq_true, decide_eq_true_eq] at h
  exact ⟨by simpa using UInt32.le_iff_toNat_le.mp h.1, by simpa using UInt32.le_iff_toNat_le.mp h.2⟩

theorem digitValue_of_isDigit (h : c.isDigit = true) : digitValue c = c.toNat - 48 := by
  simp [digitValue, h]

theorem digitValue_lt_ten (h : c.isDigit = true) : digitValue c < 10 := by
  have := digit_cases h
  rw [digitValue_of_isDigit h]
  omega

theorem head_toDigits (hn : n ≠ 0) : (Nat.toDigits 10 n).head? ≠ some '0' := by
  induction n using Nat.strongRecOn with
  | ind n ih =>
    rw [Nat.toDigits_eq_if (by decide)]
    split
    · simpa [Nat.digitChar_eq_zero] using hn
    · have hlt : n / 10 < n := Nat.div_lt_self (Nat.pos_of_ne_zero hn) (by decide)
      rw [head?_append_of_ne_nil _ Nat.toDigits_ne_nil]
      exact ih (n / 10) hlt (by omega)

theorem isDigit_of_mem (hc : c ∈ Nat.toDigits 10 n) : c.isDigit = true :=
  Nat.isDigit_of_mem_toDigits (by decide) (by decide) hc

theorem readDigits_toDigits : readDigits 10 (Nat.toDigits 10 n) = (some n, []) := by
  have hall : ∀ c ∈ Nat.toDigits 10 n, decide (digitValue c < 10) = true := fun c hc =>
    decide_eq_true (digitValue_lt_ten (isDigit_of_mem hc))
  have hvalue : digitsValue 10 (Nat.toDigits 10 n) = n := by
    calc digitsValue 10 (Nat.toDigits 10 n)
        = Nat.ofDigitChars 10 (Nat.toDigits 10 n) 0 := by
          refine foldl_ext _ _ _ fun m c hc => ?_
          rw [digitValue_of_isDigit (isDigit_of_mem hc), Nat.mul_comm]
          rfl
      _ = n := Nat.ofDigitChars_ten_toDigits
  have htake : (Nat.toDigits 10 n).takeWhile (digitValue · < 10) = Nat.toDigits 10 n :=
    takeWhile_eq_self_iff.mpr hall
  have hdrop : (Nat.toDigits 10 n).dropWhile (digitValue · < 10) = [] :=
    dropWhile_eq_nil_iff.mpr hall
  simp [readDigits, htake, hdrop, hvalue, Nat.toDigits_ne_nil]

theorem readUnsigned_toDigits : readUnsigned (Nat.toDigits 10 n) = (some n, []) := by
  unfold readUnsigned
  split
  · rename_i c rest heq
    -- a zero in front of another digit would be octal
    by_cases hn : n = 0
    · subst hn
      simp [Nat.toDigits_zero] at heq
    · exact absurd (by rw [heq]; rfl) (head_toDigits hn)
  · exact readDigits_toDigits

theorem strtoul_toDigits : strtoul (Nat.toDigits 10 n) = (some (n : Int), []) := by
  obtain ⟨c, cs, heq⟩ := exists_cons_of_ne_nil (Nat.toDigits_ne_nil (n := n) (b := 10))
  have hdigit : c.isDigit = true := isDigit_of_mem (heq ▸ mem_cons_self)
  have hcode := digit_cases hdigit
  have hspace : isSpace c = false := by
    simp only [isSpace, Bool.or_eq_false_iff, decide_eq_false_iff_not]
    refine ⟨⟨⟨⟨⟨?_, ?_⟩, ?_⟩, ?_⟩, ?_⟩, ?_⟩ <;>
      · rintro rfl
        exact absurd hcode (by decide)
  have hdrop : (Nat.toDigits 10 n).dropWhile isSpace = Nat.toDigits 10 n := by
    simp [heq, hspace]
  have hread := readUnsigned_toDigits (n := n)
  unfold strtoul
  rw [hdrop]
  split
  · rename_i rest hminus
    rw [heq] at hminus
    cases hminus
    exact absurd hcode (by decide)
  · rename_i rest hplus
    rw [heq] at hplus
    cases hplus
    exact absurd hcode (by decide)
  · rw [hread]
    rfl

theorem parseUint_toString (n : UInt32) : parseUint (toString n.toNat) = .ok n := by
  have htext : (toString n.toNat).toList = Nat.toDigits 10 n.toNat := by
    rw [Nat.toString_eq_ofList_toDigits, String.toList_ofList]
  have hempty : (toString n.toNat).isEmpty = false := by
    rw [← Bool.not_eq_true, String.isEmpty_iff, ← String.toList_eq_nil_iff, htext]
    exact Nat.toDigits_ne_nil
  have hzeros : ¬ (1 < (toString n.toNat).length ∧ (toString n.toNat).toList.head? = some '0') := by
    rintro ⟨hlen, hhead⟩
    rw [htext] at hhead
    by_cases hn : n.toNat = 0
    · rw [← String.length_toList, htext, hn, Nat.toDigits_zero] at hlen
      simp at hlen
    · exact head_toDigits hn hhead
  have hrange : (0 : Int) ≤ n.toNat ∧ (n.toNat : Int) < 2 ^ 32 :=
    ⟨Int.natCast_nonneg _, by exact_mod_cast n.toNat_lt⟩
  have hparse : tryParseUint (toString n.toNat) = .ok n := by
    rw [tryParseUint, htext, strtoul_toDigits]
    change (if (0 : Int) ≤ n.toNat ∧ (n.toNat : Int) < 2 ^ 32 then _ else _) = _
    rw [if_pos hrange]
    simp
  rw [parseUint, hempty, if_neg Bool.false_ne_true, if_neg hzeros, hparse]

theorem not_mem_toString (hd : d.isDigit = false) (n : Nat) :
    d ∉ (toString n).toList := by
  rw [Nat.toString_eq_ofList_toDigits, String.toList_ofList]
  intro hmem
  rw [isDigit_of_mem hmem] at hd
  cases hd

theorem toString_ne_empty (n : Nat) : toString n ≠ "" := by
  rw [Ne, ← String.toList_eq_nil_iff, Nat.toString_eq_ofList_toDigits, String.toList_ofList]
  exact Nat.toDigits_ne_nil

theorem cutAt_append (h : c ∉ s.toList) (o : Option String) :
    cutAt (s ++ (o.map (String.ofList [c] ++ ·)).getD "") (String.ofList [c]) = (s, o) := by
  cases o with
  | none => simp [cutAt, cut, cutChars_eq_none.mpr h]
  | some t => simp [cutAt, cut, cutChars_append h]

theorem cutAt_fst : c ∉ (cutAt s (String.ofList [c])).1.toList := by
  unfold cutAt cut
  cases hcut : cutChars [c] s.toList with
  | none => simpa [hcut] using cutChars_eq_none.mp hcut
  | some p =>
    simpa [hcut] using (cutChars_some hcut).1

theorem cutAt_snd_subset (h : (cutAt s (String.ofList [c])).2 = some t) : t.toList ⊆ s.toList := by
  unfold cutAt cut at h
  cases hcut : cutChars [c] s.toList with
  | none => simp [hcut] at h
  | some p =>
    simp [hcut] at h
    intro d hd
    rw [(cutChars_some hcut).2, ← h] at *
    simp at hd ⊢
    exact .inr (.inr hd)

theorem parseComponent_toString (which version : String) (n : UInt32) :
    parseComponent which version (toString n.toNat) = .ok n := by
  rw [parseComponent, parseUint_toString]

theorem parseCore_toString (version : String) (a b c : UInt32) :
    parseCore version (".".intercalate [toString a.toNat, toString b.toNat, toString c.toNat]) =
      .ok (a, b, c) := by
  have hsplit : split (".".intercalate [toString a.toNat, toString b.toNat, toString c.toNat]) '.' =
      [toString a.toNat, toString b.toNat, toString c.toNat] := by
    have hself : ∀ n : Nat, split (toString n) '.' = [toString n] := fun n =>
      split_self (toString_ne_empty n) (not_mem_toString (by decide) n)
    rw [show "." = String.ofList ['.'] from rfl, split_intercalate (by simp)]
    simp only [flatMap_cons, flatMap_nil, hself, append_nil, cons_append,
      nil_append]
  rw [parseCore, hsplit]
  simp only [parseComponent_toString]
  rfl

section
variable [UnicharTables]

theorem checkPrereleaseId_ok (h : checkPrereleaseId version pre ident = .ok ())
    (version' : String) :
    checkPrereleaseId version' pre ident = .ok () := by
  unfold checkPrereleaseId at h ⊢
  split at h
  · cases h
  · split at h
    · cases h
    · split at h
      · cases h
      · simp_all

theorem checkMetadataId_ok (h : checkMetadataId version whole ident = .ok ()) (version' : String) :
    checkMetadataId version' whole ident = .ok () := by
  unfold checkMetadataId at h ⊢
  split at h
  · cases h
  · split at h
    · cases h
    · simp_all

theorem checkPrerelease_ok (h : checkPrerelease version pre = .ok ()) (version' : String) :
    checkPrerelease version' pre = .ok () := by
  cases pre with
  | none => rfl
  | some pre =>
    simp only [checkPrerelease] at h ⊢
    split at h
    · cases h
    · rename_i hne
      rw [if_neg hne, forM_eq_ok]
      exact fun ident hident => checkPrereleaseId_ok (forM_eq_ok.mp h ident hident) version'

theorem checkMetadata_ok (h : checkMetadata version whole = .ok ()) (version' : String) :
    checkMetadata version' whole = .ok () := by
  cases whole with
  | none => rfl
  | some whole =>
    simp only [checkMetadata] at h ⊢
    split at h
    · cases h
    · rename_i hne
      rw [if_neg hne, forM_eq_ok]
      exact fun ident hident => checkMetadataId_ok (forM_eq_ok.mp h ident hident) version'

theorem parseVersion_checked (h : parseVersion text = .ok v) :
    '+' ∉ (v.prerelease.getD "").toList ∧ checkPrerelease text v.prerelease = .ok () ∧
      checkMetadata text v.metadata = .ok () := by
  rcases hplus : cutAt text "+" with ⟨front, whole⟩
  rcases hminus : cutAt front "-" with ⟨core, pre⟩
  simp only [parseVersion, hplus, hminus] at h
  obtain ⟨⟨major, minor, patch⟩, -, h⟩ := bind_eq_ok h
  obtain ⟨⟨⟩, hpre, h⟩ := bind_eq_ok h
  obtain ⟨⟨⟩, hmeta, h⟩ := bind_eq_ok h
  cases h
  refine ⟨?_, hpre, hmeta⟩
  cases pre with
  | none => simp
  | some pre =>
    have hfront : '+' ∉ front.toList := by
      have := cutAt_fst (s := text) (c := '+')
      rwa [show String.ofList ['+'] = "+" from rfl, hplus] at this
    have hsub : pre.toList ⊆ front.toList := cutAt_snd_subset (c := '-') (by
      rw [show String.ofList ['-'] = "-" from rfl, hminus])
    exact fun hmem => hfront (hsub hmem)

theorem parseVersion_str (h : parseVersion text = .ok v) : parseVersion v.str = .ok v := by
  obtain ⟨hplus, hpre, hmeta⟩ := parseVersion_checked h
  obtain ⟨major, minor, patch, pre, whole⟩ := v
  have hpre := checkPrerelease_ok hpre
  have hmeta := checkMetadata_ok hmeta
  have hcore : ∀ d : Char, d.isDigit = false → d ≠ '.' → d ∉ (".".intercalate
      [toString major.toNat, toString minor.toNat, toString patch.toNat]).toList := by
    intro d hd hdot hmem
    simp only [String.intercalate_cons_cons, String.intercalate_singleton, String.toList_append,
      mem_append, not_mem_toString hd, false_or, or_false] at hmem
    simp [hdot] at hmem
  have hcut : cutAt (SemverVersion.str ⟨major, minor, patch, pre, whole⟩) "+" =
      (".".intercalate [toString major.toNat, toString minor.toNat, toString patch.toNat] ++
        (pre.map ("-" ++ ·)).getD "", whole) := by
    refine cutAt_append (c := '+') ?_ whole
    intro hmem
    rw [String.toList_append, mem_append] at hmem
    rcases hmem with hmem | hmem
    · exact hcore '+' (by decide) (by decide) hmem
    · cases pre with
      | none => simp at hmem
      | some pre => simp at hmem; exact hplus hmem
  have hcut' : cutAt (".".intercalate
      [toString major.toNat, toString minor.toNat, toString patch.toNat] ++
        (pre.map ("-" ++ ·)).getD "") "-" = (".".intercalate
      [toString major.toNat, toString minor.toNat, toString patch.toNat], pre) :=
    cutAt_append (c := '-') (hcore '-' (by decide) (by decide)) pre
  simp only [parseVersion, hcut, hcut', parseCore_toString, hpre, hmeta]
  rfl

def Parsed (v : SemverVersion) : Prop := ∃ text, parseVersion text = .ok v

theorem Parsed.eq_of_str_eq (hv : Parsed v) (hw : Parsed w) (h : v.str = w.str) : v = w := by
  obtain ⟨_, hv⟩ := hv
  obtain ⟨_, hw⟩ := hw
  have hv := parseVersion_str hv
  rw [h, parseVersion_str hw] at hv
  exact (Except.ok.inj hv).symm

end

end Semver

end FridaCore.Packages
