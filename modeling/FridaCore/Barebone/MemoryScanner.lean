import FridaCore.Error
import FridaCore.Support.Text

/-!
# Scanning memory for a pattern

A pattern is compiled to tokens by `MatchPattern` of `src/barebone/memory-scanner.vala`,
and the tokens are searched for by the helper in
`src/barebone/helpers/memory-scanner/src/lib.rs`, which runs inside the target.
Between the two the tokens are laid out in memory; the helper tells them apart by
where their values are.
-/

namespace FridaCore.Barebone

inductive TokenKind
  | exact
  | wildcard
  | mask
  deriving DecidableEq, Repr

structure MatchToken where
  kind : TokenKind
  values : List UInt8 := []
  masks : List UInt8 := []
  size : Nat := 0
  deriving DecidableEq, Repr

namespace MatchToken

def append (t : MatchToken) (val : UInt8) : MatchToken :=
  { t with
    values := if t.kind ≠ .wildcard then t.values ++ [val] else t.values
    size := t.size + 1 }

def appendWithMask (t : MatchToken) (val _mask : UInt8) : MatchToken :=
  { t.append val with masks := t.masks ++ [val] }

end MatchToken

structure MatchPattern where
  size : Nat
  tokens : List MatchToken
  deriving DecidableEq, Repr

namespace MatchPattern

def throwInvalidPattern : Except Error α := .error (.invalidArgument "Invalid pattern")

/-- `g_ascii_xdigit_value` -/
def xdigitValue (ch : Char) : Option UInt8 :=
  if '0' ≤ ch ∧ ch ≤ '9' then some (UInt8.ofNat (ch.toNat - '0'.toNat))
  else if 'a' ≤ ch ∧ ch ≤ 'f' then some (UInt8.ofNat (ch.toNat - 'a'.toNat + 10))
  else if 'A' ≤ ch ∧ ch ≤ 'F' then some (UInt8.ofNat (ch.toNat - 'A'.toNat + 10))
  else none

def parseXdigitValue (ch : Char) : Except Error UInt8 :=
  match xdigitValue ch with
  | some v => .ok v
  | none => throwInvalidPattern

structure PatternByte where
  value : UInt8
  mask : UInt8
  deriving DecidableEq, Repr

def parseNibble (ch : Char) (mask wild keep : UInt8) : Except Error (UInt8 × UInt8) :=
  if ch = '?' then .ok (wild, mask &&& keep)
  else (parseXdigitValue ch).map fun v => (v, mask)

def parseMask : Option (Char × Char) → Except Error UInt8
  | some (upper, lower) => do
    let upper ← parseXdigitValue upper
    let lower ← parseXdigitValue lower
    return (upper <<< 4) ||| lower
  | none => return 0xff

def parseByte (upper lower : Char) (mask : Option (Char × Char)) : Except Error PatternByte := do
  let mask ← parseMask mask
  let (upper, mask) ← parseNibble upper mask 4 0x0f
  let (lower, mask) ← parseNibble lower mask 2 0xf0
  return ⟨(upper <<< 4) ||| lower, mask⟩

def kindOf (byte : PatternByte) : TokenKind :=
  if byte.mask = 0xff then .exact
  else if byte.mask = 0x00 then .wildcard
  else .mask

def appendByte (token : MatchToken) (byte : PatternByte) : MatchToken :=
  match kindOf byte with
  | .mask => token.appendWithMask byte.value byte.mask
  | _ => token.append byte.value

def pushByte (tokens : List MatchToken) (byte : PatternByte) : List MatchToken :=
  let kind := kindOf byte
  let (before, token) := match tokens.getLast? with
    | some t => if t.kind ≠ kind then (tokens, ({ kind } : MatchToken)) else (tokens.dropLast, t)
    | none => (tokens, ({ kind } : MatchToken))
  before ++ [appendByte token byte]

/-- The loop of `from_string`, two digits at a time. -/
def compile : List Char → Option (List Char) → List MatchToken → Except Error (List MatchToken)
  | upper :: lower :: rest, some (mu :: ml :: mrest), tokens => do
    let byte ← parseByte upper lower (some (mu, ml))
    compile rest (some mrest) (pushByte tokens byte)
  | upper :: lower :: rest, none, tokens => do
    let byte ← parseByte upper lower none
    compile rest none (pushByte tokens byte)
  | _, _, tokens => return tokens

def digits (pattern : String) : Except Error (List Char × Option (List Char)) :=
  let parts := Text.splitMost (String.ofList (pattern.toList.filter fun ch => ch ≠ ' ')) ":" 1
  let matchStr := (parts[0]?.getD "").toList
  let maskStr := parts[1]?.map String.toList
  if matchStr.length % 2 ≠ 0 then throwInvalidPattern
  else if maskStr.any fun m => m.length ≠ matchStr.length then throwInvalidPattern
  else .ok (matchStr, maskStr)

def fromString (pattern : String) : Except Error MatchPattern := do
  let (matchStr, maskStr) ← digits pattern
  let tokens ← compile matchStr maskStr []
  match tokens.head?, tokens.getLast? with
  | some first, some last =>
    if first.kind = .wildcard ∨ last.kind = .wildcard then throwInvalidPattern
    else return { size := (tokens.map (·.size)).sum, tokens }
  | _, _ => throwInvalidPattern

end MatchPattern

structure Slice where
  location : Nat
  bytes : List UInt8
  deriving DecidableEq, Repr

/-- `MatchToken` of the helper. -/
structure ScanToken where
  ttype : TokenKind
  values : Slice
  masks : Slice
  size : Nat
  deriving DecidableEq, Repr

def ScanToken.same (t u : ScanToken) : Bool :=
  t.ttype = u.ttype && t.values.location = u.values.location &&
    t.masks.location = u.masks.location && t.size = u.size

def Slice.place (location : Nat) (bytes : List UInt8) : Slice :=
  if bytes = [] then ⟨0, []⟩ else ⟨location, bytes⟩

/-- `append_memory_scanner_data`: the values and masks of the tokens, one token after
the other, from a location on. -/
def placeTokens (location : Nat) : List MatchToken → List ScanToken
  | [] => []
  | t :: rest =>
    let masks := location + t.values.length
    ⟨t.kind, .place location t.values, .place masks t.masks, t.size⟩ ::
      placeTokens (masks + t.masks.length) rest

structure MemoryRange where
  base : Nat
  bytes : List UInt8
  deriving DecidableEq, Repr

def slice (bytes : List UInt8) (start size : Nat) : List UInt8 := (bytes.drop start).take size

def chunkMatchesValuesWithMasks : (chunk values masks : List UInt8) → Bool
  | byte :: chunk, value :: values, mask :: masks =>
    if byte &&& mask = value then true else chunkMatchesValuesWithMasks chunk values masks
  | _, _, _ => false

def chunkMatchesToken (chunk : List UInt8) (token : ScanToken) : Bool :=
  match token.ttype with
  | .exact => chunk = token.values.bytes
  | .wildcard => true
  | .mask => chunkMatchesValuesWithMasks chunk token.values.bytes token.masks.bytes

/-- The loop of `chunk_matches_tokens`, at an offset. -/
def chunkMatchesTokens (chunk : List UInt8) : List ScanToken → Nat → Bool
  | [], _ => true
  | token :: rest, offset =>
    if !chunkMatchesToken (slice chunk offset token.size) token then false
    else chunkMatchesTokens chunk rest (offset + token.size)

/-- `max_by_key`: the last one of those with the greatest size. -/
def maxBySize : List ScanToken → Option ScanToken
  | [] => none
  | t :: rest =>
    match maxBySize rest with
    | some u => if t.size > u.size then some t else some u
    | none => some t

def findLongestToken (tokens : List ScanToken) (ttype : TokenKind) : Option ScanToken :=
  maxBySize (tokens.filter fun t => t.ttype = ttype)

structure TokenCtx where
  tokens : List ScanToken
  longest : ScanToken
  lenBeforeLongest : Nat
  lenFromLongest : Nat
  totalSize : Nat
  deriving DecidableEq, Repr

namespace TokenCtx

/-- `TokenCtx::new`. Only wildcards would be nothing to search for. -/
def new (tokens : List ScanToken) : Option TokenCtx :=
  match (findLongestToken tokens .exact).or (findLongestToken tokens .mask) with
  | none => none
  | some longest =>
    let totalSize := (tokens.map (·.size)).sum
    let before := tokens.takeWhile fun t => !t.same longest
    let lenBeforeLongest := (before.map (·.size)).sum
    some
      { tokens, longest, lenBeforeLongest, totalSize
        lenFromLongest := totalSize - lenBeforeLongest }

def isPotentialMatch (z : TokenCtx) (candidate : List UInt8) : Bool :=
  match z.longest.ttype with
  | .mask => chunkMatchesValuesWithMasks candidate z.longest.values.bytes z.longest.masks.bytes
  | _ => candidate = z.longest.values.bytes

def isMatch (z : TokenCtx) (data : List UInt8) (x : Nat) : Bool :=
  z.tokens.length = 1 || chunkMatchesTokens (slice data x z.totalSize) z.tokens 0

/-- `MemorySearch::next`, from the state of the search to a match and the state after it. -/
def next (z : TokenCtx) (data : List UInt8) :
    (remainder offset : Nat) → Option (Nat × Nat × Nat)
  | 0, _ => none
  | remainder + 1, offset =>
    if remainder + 1 ≥ z.lenFromLongest then
      let x := offset - z.lenBeforeLongest
      if z.isPotentialMatch (slice data offset z.longest.size) && z.isMatch data x then
        some (x, remainder, offset + 1)
      else next z data remainder (offset + 1)
    else none

/-- The inner loop of `scan`, which returns whether there are enough matches. There is
a turn for every byte. -/
def scanRange (z : TokenCtx) (range : MemoryRange) (maxMatches : Nat) :
    (turns remainder offset : Nat) → List Nat → List Nat × Bool
  | 0, _, _, found => (found, false)
  | turns + 1, remainder, offset, found =>
    match z.next range.bytes remainder offset with
    | none => (found, false)
    | some (x, remainder, offset) =>
      let found := found ++ [range.base + x]
      if found.length = maxMatches then (found, true)
      else scanRange z range maxMatches turns remainder offset found

def scanRanges (z : TokenCtx) (maxMatches : Nat) : List MemoryRange → List Nat → List Nat
  | [], found => found
  | range :: rest, found =>
    match z.scanRange range maxMatches range.bytes.length
        (range.bytes.length - z.lenBeforeLongest) z.lenBeforeLongest found with
    | (found, true) => found
    | (found, false) => scanRanges z maxMatches rest found

end TokenCtx

def scan (tokens : List ScanToken) (ranges : List MemoryRange) (maxMatches : Nat) :
    Option (List Nat) :=
  (TokenCtx.new tokens).map fun z => z.scanRanges maxMatches ranges []

end FridaCore.Barebone
