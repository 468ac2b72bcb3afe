import Mathlib

/-!
# Lexical normalisation of paths

An absolute path is the list of its components. Normalisation drops empty and
`.` components and lets `..` take back the component before it; at the top there
is nothing to take back. A relative path first goes some levels up and then down.
-/

namespace FridaCore.Path

open List

def follow (dir : List String) (part : String) : List String :=
  if part = "" ∨ part = "." then dir else if part = ".." then dir.dropLast else dir ++ [part]

def normalize (path : List String) : List String := path.foldl follow []

theorem normalize_append (a b : List String) : normalize (a ++ b) = b.foldl follow (normalize a) :=
  foldl_append

def Below (dir path : List String) : Prop :=
  ∃ rest, rest ≠ [] ∧ normalize path = normalize dir ++ rest

structure Relative where
  ups : Nat := 0
  down : List String := []
  deriving DecidableEq, Repr

def Relative.follow (r : Relative) (part : String) : Relative :=
  if part = "" ∨ part = "." then r
  else if part = ".." then
    if r.down = [] then { r with ups := r.ups + 1 } else { r with down := r.down.dropLast }
  else { r with down := r.down ++ [part] }

def relative (parts : List String) : Relative := parts.foldl Relative.follow {}

def Relative.resolve (r : Relative) (dir : List String) : List String :=
  dir.rdrop r.ups ++ r.down

theorem Relative.resolve_follow (r : Relative) (dir : List String) (part : String) :
    (r.follow part).resolve dir = Path.follow (r.resolve dir) part := by
  unfold Relative.follow Path.follow
  split
  · rfl
  · split
    · split
      · rename_i hdown
        simp only [resolve, hdown, append_nil, rdrop, dropLast_eq_take,
          take_take, length_take]
        congr 1
        omega
      · rename_i hdown
        simp [resolve, dropLast_append_of_ne_nil hdown]
    · simp [resolve]

theorem foldl_follow (dir parts : List String) :
    parts.foldl follow dir = (relative parts).resolve dir := by
  have hgen : ∀ r : Relative, parts.foldl follow (r.resolve dir) =
      (parts.foldl Relative.follow r).resolve dir := by
    induction parts with
    | nil => intro r; rfl
    | cons part parts ih =>
      intro r
      rw [foldl_cons, ← r.resolve_follow]
      exact ih _
  simpa [Relative.resolve, relative] using hgen {}

end FridaCore.Path
