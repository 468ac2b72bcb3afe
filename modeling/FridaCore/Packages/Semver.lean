import FridaCore.Error
import FridaCore.Support.Except
import FridaCore.Support.Text

/-!
# Semantic versions

The `Semver` namespace of `src/package-manager.vala`. Numbers are C `uint`s.
Which characters beyond ASCII are letters or digits is GLib's business, so the
Unicode tables are a parameter.
-/

namespace FridaCore.Packages

open Text

/-- How a computation of the package manager can end without a result: it
throws, it uses a null reference, or it never ends. -/
inductive Failure
  | error (e : Error)
  | crash
  | diverges
  deriving DecidableEq, Repr

abbrev Result := Except Failure

def protocol {α : Type _} (message : String) : Result α := .error (.error (.protocol message))

/-- GLib's classification of the characters beyond ASCII. -/
class UnicharTables where
  isalnum : Char → Bool
  isdigit : Char → Bool

@[reducible] def asciiTables : UnicharTables := ⟨fun _ => false, fun _ => false⟩

structure SemverVersion where
  major : UInt32
  minor : UInt32 := 0
  patch : UInt32 := 0
  prerelease : Option String := none
  metadata : Option String := none
  deriving DecidableEq, Repr

def SemverVersion.str (v : SemverVersion) : String :=
  s!"{v.major.toNat}.{v.minor.toNat}.{v.patch.toNat}" ++
    (v.prerelease.map ("-" ++ ·)).getD "" ++ (v.metadata.map ("+" ++ ·)).getD ""

namespace Semver

section
variable [UnicharTables]

def isalnum (c : Char) : Bool := if c.val < 128 then c.isAlphanum else UnicharTables.isalnum c

def isdigit (c : Char) : Bool := if c.val < 128 then c.isDigit else UnicharTables.isdigit c

def digitValue (c : Char) : Nat :=
  if c.isDigit then c.toNat - '0'.toNat
  else if 'a' ≤ c ∧ c ≤ 'z' then c.toNat - 'a'.toNat + 10
  else if 'A' ≤ c ∧ c ≤ 'Z' then c.toNat - 'A'.toNat + 10
  else 36

def digitsValue (base : Nat) (digits : List Char) : Nat :=
  digits.foldl (fun n c => n * base + digitValue c) 0

def readDigits (base : Nat) (s : List Char) : Option Nat × List Char :=
  let digits := s.takeWhile (digitValue · < base)
  (if digits.isEmpty then none else some (digitsValue base digits),
    s.dropWhile (digitValue · < base))

def readUnsigned : List Char → Option Nat × List Char
  | '0' :: c :: rest =>
    if (c = 'x' ∨ c = 'X') ∧ rest.head?.any (digitValue · < 16) then readDigits 16 rest
    else readDigits 8 ('0' :: c :: rest)
  | s => readDigits 10 s

/-- `strtoul` with base 0: the number read, none if there is no digit, and the rest. -/
def strtoul (s : List Char) : Option Int × List Char :=
  match s.dropWhile isSpace with
  | '-' :: rest => (readUnsigned rest).map (Option.map fun n => -Int.ofNat n) id
  | '+' :: rest => (readUnsigned rest).map (Option.map Int.ofNat) id
  | rest => (readUnsigned rest).map (Option.map Int.ofNat) id

/-- `uint.try_parse`: the number, or what could not be parsed. Negative numbers
wrap around to values no `uint` holds. -/
def tryParseUint (s : String) : Except String UInt32 :=
  match strtoul s.toList with
  | (none, _) => .error s
  | (some n, []) =>
    if 0 ≤ n ∧ n < 2 ^ 32 then .ok (UInt32.ofNat n.toNat) else .error ""
  | (some _, rest) => .error (String.ofList rest)

def parseUint (s : String) : Result UInt32 :=
  if s.isEmpty then protocol "Numeric component cannot be empty"
  else if 1 < s.length ∧ s.toList.head? = some '0' then
    protocol s!"Numeric component '{s}' has leading zeros"
  else
    match tryParseUint s with
    | .ok n => .ok n
    | .error "" => protocol s!"Numeric component '{s}' is too large or invalid"
    | .error unparsed =>
      protocol s!"Invalid characters in numeric component '{s}': problem starts at \"{unparsed}\""

def parseComponent (which version s : String) : Result UInt32 :=
  match parseUint s with
  | .error (.error e) => protocol s!"Invalid {which} version in '{version}': {e.message}"
  | r => r

def checkPrereleaseId (version pre id : String) : Result Unit :=
  if id.isEmpty then
    protocol s!"Pre-release identifier in '{version}' cannot be empty (found in '{pre}')"
  else match id.toList.find? fun c => !isalnum c && c ≠ '-' with
    | some c =>
      protocol s!"Pre-release identifier '{id}' in '{version}' contains invalid character '{c}'"
    | none =>
      if id.toList.all isdigit ∧ 1 < id.length ∧ id.toList.head? = some '0' then
        protocol
          s!"Numeric pre-release identifier '{id}' in '{version}' must not have leading zeros"
      else .ok ()

def checkMetadataId (version whole id : String) : Result Unit :=
  if id.isEmpty then
    protocol s!"Build metadata identifier in '{version}' cannot be empty (found in '{whole}')"
  else match id.toList.find? fun c => !isalnum c && c ≠ '-' with
    | some c =>
      protocol s!"Build metadata identifier '{id}' in '{version}' contains invalid character '{c}'"
    | none => .ok ()

def checkPrerelease (version : String) : Option String → Result Unit
  | none => .ok ()
  | some pre =>
    if pre.isEmpty then
      protocol s!"Pre-release part of '{version}' cannot be empty if specified by a hyphen"
    else (split pre '.').forM (checkPrereleaseId version pre)

def checkMetadata (version : String) : Option String → Result Unit
  | none => .ok ()
  | some whole =>
    if whole.isEmpty then
      protocol s!"Build metadata part of '{version}' cannot be empty if specified by a plus"
    else (split whole '.').forM (checkMetadataId version whole)

def cutAt (s delimiter : String) : String × Option String :=
  match cut s delimiter with
  | some (front, back) => (front, some back)
  | none => (s, none)

def parseCore (version core : String) : Result (UInt32 × UInt32 × UInt32) :=
  match split core '.' with
  | [major] => do return (← parseComponent "major" version major, 0, 0)
  | [major, minor] => do
    return (← parseComponent "major" version major, ← parseComponent "minor" version minor, 0)
  | [major, minor, patch] => do
    return (← parseComponent "major" version major, ← parseComponent "minor" version minor,
      ← parseComponent "patch" version patch)
  | nums => protocol <|
    s!"Invalid semver version '{version}': core part must have 1 to 3 segments, " ++
      s!"found {nums.length}"

def parseVersion (version : String) : Result SemverVersion := do
  let (v, metadata) := cutAt version "+"
  let (core, prerelease) := cutAt v "-"
  let (major, minor, patch) ← parseCore version core
  checkPrerelease version prerelease
  checkMetadata version metadata
  return { major, minor, patch, prerelease, metadata }

def extractCorePart (version : String) : String := (cutAt (cutAt version "-").1 "+").1

def isNumericIdentifier (s : String) : Bool := !s.isEmpty && s.toList.all isdigit

def compareIdentifiers (a b : String) : Ordering :=
  match isNumericIdentifier a, isNumericIdentifier b with
  | true, true => (compare a.utf8ByteSize b.utf8ByteSize).then (compare a b)
  | true, false => .lt
  | false, true => .gt
  | false, false => compare a b

def compareIdentifierLists : List String → List String → Ordering
  | a :: as, b :: bs => (compareIdentifiers a b).then (compareIdentifierLists as bs)
  | [], [] => .eq
  | [], _ => .lt
  | _, [] => .gt

def comparePrerelease : Option String → Option String → Ordering
  | none, none => .eq
  | none, some _ => .gt
  | some _, none => .lt
  | some a, some b => compareIdentifierLists (split a '.') (split b '.')

def compareVersion (a b : SemverVersion) : Ordering :=
  (compare a.major b.major).then <| (compare a.minor b.minor).then <|
    (compare a.patch b.patch).then <| comparePrerelease a.prerelease b.prerelease

def countChar (s : String) (c : Char) : Nat := s.toList.count c

def isPreciseRange (range : String) : Bool :=
  if range = "latest" then true
  else if [" ", "^", "~", ">", "<", "*"].any (contains range) then false
  else
    match parseVersion range with
    | .ok _ => countChar (extractCorePart range) '.' = 2
    | .error _ => false

def wildcardPart : Option String → Result (Option UInt32)
  | none | some "x" | some "" => .ok none
  | some part => some <$> parseUint part

def wildcardMatch (cand : SemverVersion) (pat : String) : Result Bool := do
  let norm := String.ofList (pat.toList.map fun c => if c = '*' ∨ c = 'X' then 'x' else c)
  let parts := split norm '.'
  let major ← match parts[0]? with
    | none => pure (some 0)
    | part => wildcardPart part
  let minor ← wildcardPart parts[1]?
  let patch ← wildcardPart parts[2]?
  match major with
  | none => return true
  | some major =>
    let lower : SemverVersion := { major, minor := minor.getD 0, patch := patch.getD 0 }
    let upper : SemverVersion ← match minor, patch with
      | none, _ => pure { major := major + 1 }
      | some minor, none => pure { major, minor := minor + 1 }
      | some _, some _ => return compareVersion cand lower = .eq
    return compareVersion cand lower ≠ .lt ∧ compareVersion cand upper = .lt

/-- `>`, `>=`, `<` or `<=` in front of a version. -/
def comparisonOperator (comp : String) : Option ((Ordering → Bool) × String) :=
  match comp.toList with
  | '>' :: '=' :: ver => some ((· ≠ .lt), String.ofList ver)
  | '<' :: '=' :: ver => some ((· ≠ .gt), String.ofList ver)
  | '>' :: ver => some ((· = .gt), String.ofList ver)
  | '<' :: ver => some ((· = .lt), String.ofList ver)
  | _ => none

def tildeUpper (lower : SemverVersion) : SemverVersion :=
  if lower.major = 0 ∧ lower.minor = 0 then { major := 0, minor := 0, patch := lower.patch + 1 }
  else if lower.major = 0 then { major := 0, minor := lower.minor + 1 }
  else { major := lower.major, minor := lower.minor + 1 }

def caretUpper (lower : SemverVersion) : SemverVersion :=
  if lower.major ≠ 0 then { major := lower.major + 1 }
  else if lower.minor ≠ 0 then { major := 0, minor := lower.minor + 1 }
  else { major := 0, minor := 0, patch := lower.patch + 1 }

def checkInterval (cand : SemverVersion) (upper : SemverVersion → SemverVersion) (ver : String) :
    Result Bool := do
  let lower ← parseVersion ver
  return compareVersion cand lower ≠ .lt ∧ compareVersion cand (upper lower) = .lt

/-- A hyphen range leads back to `satisfies_range`, here an argument. -/
def checkComparator (satisfiesRange : String → Result Bool) (cand : SemverVersion)
    (comparator : String) : Result Bool :=
  let comp := strip comparator
  match cut comp " - " with
  | some (lo, hi) => do
    if ← satisfiesRange (">=" ++ strip lo) then satisfiesRange ("<=" ++ strip hi)
    else return false
  | none =>
    if comp = "*" ∨ comp = "x" ∨ comp = "X" then return true
    else match comparisonOperator comp with
    | some (accepts, ver) => do return accepts (compareVersion cand (← parseVersion ver))
    | none =>
      if hasPrefix comp "~" then checkInterval cand tildeUpper (dropFirst comp 1)
      else if hasPrefix comp "^" then checkInterval cand caretUpper (dropFirst comp 1)
      else if contains comp "*" ∨ contains comp "x" ∨ contains comp "X" ∨ countChar comp '.' < 2 then
        wildcardMatch cand comp
      else do return compareVersion cand (← parseVersion comp) = .eq

/-- A piece of a comparator names a prerelease of the candidate's own version. -/
def pieceAllowsPrerelease (cand : SemverVersion) (piece : String) : Result Bool := do
  let vstr := strip piece
  let vstr := match comparisonOperator vstr with
    | some (_, ver) => ver
    | none => if hasPrefix vstr "^" ∨ hasPrefix vstr "~" then dropFirst vstr 1 else vstr
  let corePart := extractCorePart vstr
  if contains corePart "*" ∨ contains corePart "x" ∨ contains corePart "X" then return false
  let v ← parseVersion vstr
  return v.prerelease.isSome ∧ v.major = cand.major ∧ v.minor = cand.minor ∧ v.patch = cand.patch

def rangeAllowsPrerelease (cand : SemverVersion) (range : String) : Result Bool :=
  (splitStr range "||").anyM fun clause =>
    (split (strip clause) ' ').anyM fun rawComp =>
      let comp := strip rawComp
      if comp.isEmpty then return false
      else (splitMost comp " - " 1).anyM (pieceAllowsPrerelease cand)

def satisfiesClause (satisfiesRange : String → Result Bool) (cand : SemverVersion)
    (clause : String) : Result Bool := do
  let part := strip clause
  if contains part " - " then checkComparator satisfiesRange cand part
  else
    let ok ← (split part ' ').allM fun comp =>
      if (strip comp).isEmpty then return true
      else checkComparator satisfiesRange cand (strip comp)
    if !ok then return false
    else if cand.prerelease.isSome then rangeAllowsPrerelease cand clause
    else return true

/-- Every hyphen range is followed by shorter ranges, so the nesting is bounded. -/
def satisfiesRangeWithin : Nat → SemverVersion → String → Result Bool
  | 0, _, _ => .error .diverges
  | depth + 1, cand, range =>
    let r := strip range
    if r.isEmpty then protocol s!"Invalid version range: '{range}'"
    else (splitStr r "||").anyM (satisfiesClause (satisfiesRangeWithin depth cand) cand)

def satisfiesRange (cand : SemverVersion) (range : String) : Result Bool :=
  satisfiesRangeWithin (range.length + 1) cand range

/-- The loop of `max_satisfying` with the best candidate so far. -/
def maxSatisfyingFrom (range : String) :
    Option (String × SemverVersion) → List String → Result (Option (String × SemverVersion))
  | best, [] => .ok best
  | best, v :: versions => do
    let cand ← parseVersion v
    if !(← satisfiesRange cand range) then maxSatisfyingFrom range best versions
    else match best with
      | none => maxSatisfyingFrom range (some (v, cand)) versions
      | some (_, bestVer) =>
        if compareVersion cand bestVer = .gt then maxSatisfyingFrom range (some (v, cand)) versions
        else maxSatisfyingFrom range best versions

def maxSatisfying (versions : List String) (range : String) : Result (Option String) :=
  (Option.map Prod.fst) <$> maxSatisfyingFrom range none versions

end

end Semver

end FridaCore.Packages
