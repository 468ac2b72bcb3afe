import FridaCore.Support.Json
import FridaCore.Support.Text

/-!
# Documents as text

`generate_npm_style_json`: the text of a pretty-printed document with the space
in front of each colon taken out, line by line and without looking at what a line
is. What json-glib prints is not part of the repository, and is given. As long as the
colon found in a line is not inside of a string, all that changes is the space between
two tokens.
-/

namespace FridaCore

open List Relation Text

/-- The indentation of a document, as `detect_indent` finds it. -/
structure Json.Indent where
  char : Char := ' '
  width : Nat := 2
  blank : char = ' ' ∨ char = '\t' := by decide

namespace Packages

def npmLine (line : String) : String :=
  match Text.cut line " : " with
  | some (front, back) =>
    if front.toList.getLast? = some '"' then front ++ ": " ++ back else line
  | none => line

/-- The text that `to_data` of a pretty-printing generator returns is changed line by line. -/
def generateNpmStyleJson (toData : Json.Indent → Json → String) (indent : Json.Indent)
    (doc : Json) : String :=
  "\n".intercalate ((Text.split (toData indent doc) '\n').map npmLine) ++ "\n"

inductive Lexical
  | between
  | inString
  | escaped
  deriving DecidableEq, Repr

def Lexical.next : Lexical → Char → Lexical
  | .between, c => if c = '"' then .inString else .between
  | .inString, c => if c = '"' then .between else if c = '\\' then .escaped else .inString
  | .escaped, _ => .inString

/-- Where one is in a document after a part of its text. -/
def lexical (text : String) : Lexical := text.toList.foldl .next .between

/-- A space in front of a colon is taken out, between two tokens. -/
def Tightened (text text' : String) : Prop :=
  ∃ front back, lexical front = .between ∧ text = front ++ " : " ++ back ∧
    text' = front ++ ": " ++ back

/-- No string goes on in the next line, and the colon of a line that is changed is not inside
of one. -/
structure Intact (line : String) : Prop where
  closed : lexical line = .between
  separator : ∀ front back, Text.cut line " : " = some (front, back) →
    front.toList.getLast? = some '"' → lexical front = .between

instance : DecidablePred Intact := fun line =>
  decidable_of_iff (lexical line = .between ∧
      ∀ p ∈ Text.cut line " : ", p.1.toList.getLast? = some '"' → lexical p.1 = .between)
    ⟨fun h => ⟨h.1, fun front back hcut => h.2 (front, back) hcut⟩,
      fun h => ⟨h.closed, fun p hp => h.separator p.1 p.2 hp⟩⟩

theorem lexical_append (h : lexical front = .between) (rest : String) :
    lexical (front ++ rest) = lexical rest := by
  simp only [lexical] at h ⊢
  rw [String.toList_append, foldl_append, h]

theorem npmLine_cases (line : String) : npmLine line = line ∨
    ∃ front back, Text.cut line " : " = some (front, back) ∧
      front.toList.getLast? = some '"' ∧ line = front ++ " : " ++ back ∧
      npmLine line = front ++ ": " ++ back := by
  unfold npmLine
  split
  · next front back hcut =>
    split
    · next hquote => exact .inr ⟨front, back, hcut, hquote, cut_eq_some hcut, rfl⟩
    · exact .inl rfl
  · exact .inl rfl

theorem Intact.lexical_npmLine (h : Intact line) : lexical (npmLine line) = .between := by
  rcases npmLine_cases line with hline | ⟨front, back, hcut, hquote, hline, hchanged⟩
  · rw [hline, h.closed]
  · have hfront := h.separator front back hcut hquote
    have hclosed := h.closed
    rw [hline, String.append_assoc, lexical_append hfront, lexical_append rfl] at hclosed
    rw [hchanged, String.append_assoc, lexical_append hfront, lexical_append rfl, hclosed]

theorem Intact.tightened (h : Intact line) (hfront : lexical front = .between) (rest : String) :
    ReflTransGen Tightened (front ++ line ++ rest) (front ++ npmLine line ++ rest) := by
  rcases npmLine_cases line with hline | ⟨start, back, hcut, hquote, hline, hchanged⟩
  · rw [hline]
  · refine .single ⟨front ++ start, back ++ rest, ?_, ?_, ?_⟩
    · rw [lexical_append hfront, h.separator start back hcut hquote]
    · rw [hline]
      simp only [String.append_assoc]
    · rw [hchanged]
      simp only [String.append_assoc]

/-- Line after line, the text in front being changed already. -/
theorem tightened_lines (h : ∀ line ∈ lines, Intact line) (hfront : lexical front = .between) :
    ReflTransGen Tightened (front ++ "\n".intercalate lines)
      (front ++ "\n".intercalate (lines.map npmLine)) := by
  induction lines generalizing front with
  | nil => exact .refl
  | cons line lines ih =>
    obtain ⟨hline, hlines⟩ := forall_mem_cons.mp h
    cases lines with
    | nil => simpa using hline.tightened hfront ""
    | cons next lines =>
      have hnext : lexical (front ++ npmLine line ++ "\n") = .between := by
        rw [String.append_assoc, lexical_append hfront, lexical_append hline.lexical_npmLine]
        rfl
      have hrest := ih hlines hnext
      have hfirst := hline.tightened hfront ("\n" ++ "\n".intercalate (next :: lines))
      simp only [map_cons, String.intercalate_cons_cons, String.append_assoc] at hrest hfirst ⊢
      exact hfirst.trans hrest

theorem generateNpmStyleJson_tightened {toData : Json.Indent → Json → String}
    (h : ∀ line ∈ Text.split (toData indent doc) '\n', Intact line) :
    ∃ text, ReflTransGen Tightened (toData indent doc) text ∧
      generateNpmStyleJson toData indent doc = text ++ "\n" := by
  have htext := tightened_lines h (rfl : lexical "" = .between)
  rw [String.empty_append, String.empty_append,
    intercalate_split (toData indent doc) '\n'] at htext
  exact ⟨_, htext, rfl⟩

end Packages

end FridaCore
