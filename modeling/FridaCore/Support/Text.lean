import Mathlib

/-!
# Text

The string functions the code takes from GLib, as functions on Lean's strings.
Lengths and positions only ever come from searches for ASCII text, so counting
characters instead of bytes makes no difference to where a string is cut.
-/

namespace FridaCore.Text

open List

def cutChars (delimiter : List Char) : List Char → Option (List Char × List Char)
  | [] => none
  | c :: cs =>
    if delimiter.isPrefixOf (c :: cs) then some ([], (c :: cs).drop delimiter.length)
    else (cutChars delimiter cs).map fun (front, back) => (c :: front, back)

/-- `index_of` and the two slices around what it found. -/
def cut (s delimiter : String) : Option (String × String) :=
  (cutChars delimiter.toList s.toList).map fun (front, back) =>
    (String.ofList front, String.ofList back)

def contains (s part : String) : Bool := (cut s part).isSome

def splitChars (delimiter : List Char) : Nat → List Char → List (List Char)
  | 0, s => [s]
  | n + 1, s =>
    match cutChars delimiter s with
    | none => [s]
    | some (front, back) => front :: splitChars delimiter n back

/-- `split` with a limit: at most one more token than there may be cuts. -/
def splitMost (s delimiter : String) (cuts : Nat) : List String :=
  if s.isEmpty then [] else (splitChars delimiter.toList cuts s.toList).map String.ofList

/-- `split` at a delimiter that may be longer than a character. -/
def splitStr (s delimiter : String) : List String := splitMost s delimiter s.length

/-- `split` at a character; unlike the empty token, the empty string has no tokens. -/
def split (s : String) (delimiter : Char) : List String :=
  if s.isEmpty then [] else (s.toList.splitOn delimiter).map String.ofList

/-- `g_ascii_isspace` -/
def isSpace (c : Char) : Bool :=
  c = ' ' || c = '\t' || c = '\n' || c = '\x0b' || c = '\x0c' || c = '\r'

def strip (s : String) : String :=
  String.ofList (((s.toList.dropWhile isSpace).reverse.dropWhile isSpace).reverse)

/-- `s[n:]` for a prefix known to be there. -/
def dropFirst (s : String) (n : Nat) : String := String.ofList (s.toList.drop n)

def hasPrefix (s start : String) : Bool := start.toList.isPrefixOf s.toList

theorem cutChars_eq_append (h : cutChars delimiter s = some (front, back)) :
    s = front ++ delimiter ++ back := by
  induction s generalizing front with
  | nil => cases h
  | cons a s ih =>
    rw [cutChars] at h
    split_ifs at h with hstart
    · obtain ⟨rest, hrest⟩ := isPrefixOf_iff_prefix.mp hstart
      rw [← hrest, drop_left] at h
      cases h
      exact hrest.symm
    · obtain ⟨⟨front', back'⟩, hcut, heq⟩ := Option.map_eq_some_iff.mp h
      cases heq
      simpa using ih hcut

theorem cut_eq_some (h : cut s delimiter = some (front, back)) : s = front ++ delimiter ++ back := by
  simp only [cut, Option.map_eq_some_iff, Prod.exists, Prod.mk.injEq] at h
  obtain ⟨front, back, hcut, rfl, rfl⟩ := h
  have happend := cutChars_eq_append hcut
  rw [← String.toList_inj]
  simpa using happend

theorem intercalate_split (s : String) (c : Char) :
    (String.ofList [c]).intercalate (split s c) = s := by
  unfold split
  split_ifs with hs
  · simp [String.isEmpty_iff.mp hs]
  · rw [← String.toList_inj, String.toList_intercalate]
    simp [Function.comp_def, intercalate_splitOn]

theorem split_ne_nil (hs : s ≠ "") : split s c ≠ [] := by
  simp [split, hs, splitOn_ne_nil]

theorem split_append (hs : s ≠ "") (ht : t ≠ "") :
    split (s ++ String.ofList [c] ++ t) c = split s c ++ split t c := by
  simp [split, hs, ht, splitOn_append_cons_self]

theorem intercalate_ne_empty (hs : s ≠ "") : String.intercalate t (s :: parts) ≠ "" := by
  cases parts with
  | nil => simpa using hs
  | cons u parts => simp [String.intercalate_cons_cons, hs]

theorem split_intercalate (h : ∀ s ∈ parts, s ≠ "") :
    split ((String.ofList [c]).intercalate parts) c = parts.flatMap (split · c) := by
  induction parts with
  | nil => simp [split]
  | cons s parts ih =>
    obtain ⟨hs, hparts⟩ := forall_mem_cons.mp h
    cases parts with
    | nil => simp
    | cons t parts =>
      have ht : (String.ofList [c]).intercalate (t :: parts) ≠ "" :=
        intercalate_ne_empty (forall_mem_cons.mp hparts).1
      rw [String.intercalate_cons_cons, split_append hs ht, ih hparts]
      simp only [flatMap_cons]

theorem split_self (hs : s ≠ "") (hc : c ∉ s.toList) : split s c = [s] := by
  have hone : ([c].intercalate [s.toList]).splitOn c = [s.toList] :=
    splitOn_intercalate c (by simpa using hc) (by simp)
  rw [intercalate_singleton] at hone
  simp [split, hs, hone]

theorem cutChars_eq_none : cutChars [c] s = none ↔ c ∉ s := by
  induction s with
  | nil => simp [cutChars]
  | cons a s ih =>
    by_cases h : c = a
    · simp [cutChars, h]
    · simp [cutChars, h, ih]

theorem cutChars_append (h : c ∉ s) (t : List Char) :
    cutChars [c] (s ++ c :: t) = some (s, t) := by
  induction s with
  | nil => simp [cutChars]
  | cons a s ih =>
    have hne : c ≠ a := fun heq => h (heq ▸ mem_cons_self)
    simp [cutChars, hne, ih fun hs => h (mem_cons_of_mem _ hs)]

theorem cutChars_some (h : cutChars [c] s = some (front, back)) :
    c ∉ front ∧ s = front ++ c :: back := by
  induction s generalizing front with
  | nil => cases h
  | cons a s ih =>
    by_cases heq : c = a
    · subst heq
      simp only [cutChars, List.isPrefixOf_cons_cons, BEq.rfl, List.isPrefixOf_nil_left,
        Bool.and_self,
        if_true, List.length_singleton, List.drop_succ_cons, List.drop_zero, Option.some.injEq,
        Prod.mk.injEq] at h
      obtain ⟨rfl, rfl⟩ := h
      simp
    · simp only [cutChars, List.isPrefixOf_cons_cons, beq_eq_false_iff_ne.mpr heq, Bool.false_and,
        Bool.false_eq_true, if_false, Option.map_eq_some_iff, Prod.exists, Prod.mk.injEq] at h
      obtain ⟨front', back', hcut, rfl, rfl⟩ := h
      obtain ⟨hfront, rfl⟩ := ih hcut
      exact ⟨by simp [heq, hfront], rfl⟩

end FridaCore.Text
