import FridaCore.Error
import FridaCore.Fruity.PlistRoundTrip
import FridaCore.Support.Ieee

/-!
# Keyed archives

`NSKeyedArchive` of `src/fruity/keyed-archive.vala`. An archive is a property list with a
table of objects: what an object is made of is referred to by position, and each array or
dictionary refers to a record of its class. Numbers and strings that are equal are put into
the table once. The first object is a placeholder: position zero stands for null.

A reference to an object that may be null is an `NSObject` here, with `null` among them.
Nothing comes out of the encoder where the process would crash, or where C leaves a
conversion undefined. Positions can go around in a circle in an archive that is received,
so the decoder gets fuel.
-/

namespace FridaCore.Fruity

def Str.ofString (s : String) : Str := s.toList.map fun c => .ofNat c.toNat

def Str.text (s : Str) : String := (String.fromUTF8? ⟨s.toArray⟩).getD ""

/-- `NSNumber`, by kind. Reals are their bits. -/
inductive NSNumber
  | boolean (val : Bool)
  | integer (val : Int64)
  | float (bits : UInt32)
  | double (bits : UInt64)
  deriving DecidableEq, Repr

/-- A real without what is after its point, as an `int64`. -/
def int64OfReal (fmt : BinaryFormat) (bits : Nat) : Option Int64 := do
  let i ← fmt.truncate bits
  if -2 ^ 63 ≤ i ∧ i < 2 ^ 63 then some (.ofInt i) else none

/-- `NSNumber.integer` -/
def NSNumber.toInteger : NSNumber → Option Int64
  | .boolean val => some (if val then 1 else 0)
  | .integer val => some val
  | .float bits => int64OfReal .binary32 bits.toNat
  | .double bits => int64OfReal .binary64 bits.toNat

def NSNumber.isEqualTo : NSNumber → NSNumber → Bool
  | .boolean a, .boolean b => a = b
  | .integer a, .integer b => a = b
  | .float a, .float b => floatEq a b
  | .double a, .double b => doubleEq a b
  | _, _ => false

/-- An object, or null. Dictionaries and sets are in the order in which they are iterated. -/
inductive NSObject
  | null
  | number (n : NSNumber)
  | string (str : Str)
  | data (bytes : List UInt8)
  | dictionary (entries : List (Str × NSObject))
  | dictionaryRaw (entries : List (NSObject × NSObject))
  | array (elements : List NSObject)
  | set (items : List NSObject)
  | date (time : UInt64)
  | error (domain : Str) (code : Int64) (userInfo : NSObject)
  | tapMessage (plist : NSObject)
  deriving Repr

/-- `is_equal_to`, of two objects that have been created one after the other. Most objects
are equal to themselves only. -/
def NSObject.isEqualTo : NSObject → NSObject → Bool
  | .number a, .number b => a.isEqualTo b
  | .string a, .string b => a = b
  | .data a, .data b => a = b
  | _, _ => false

namespace NSKeyedArchive

def dictionaryClass : List String := ["NSDictionary", "NSObject"]

def arrayClass : List String := ["NSArray", "NSObject"]

def setClass : List String := ["NSSet", "NSObject"]

/-- The order in which the entries of a `PlistDict` are iterated, given the order in which
they have been set. -/
class HashOrder where
  iterate : List (Str × Value Nat) → List (Str × Value Nat)
  perm : ∀ entries, (iterate entries).Perm entries

def newDict [HashOrder] (id : Nat) (entries : List (String × Value Nat)) : Value Nat :=
  .dict id (HashOrder.iterate (entries.map fun e => (Str.ofString e.1, e.2)))

def uidValue (uid : Nat) : Value Nat := .scalar (.uid (.ofNat uid))

def classSpec [HashOrder] (id hierarchy : Nat) (description : List String) : Value Nat :=
  newDict id
    [("$classes", .array hierarchy (description.map fun name => .scalar (.string (.ofString name)))),
      ("$classname", .scalar (.string (.ofString (description.headD ""))))]

/-- `EncodingContext`. A new array or dict takes the next identity. -/
structure EncodingContext where
  objects : List (Value Nat)
  classes : List (String × Nat) := []
  next : Nat

abbrev Encoding := StateT EncodingContext Option

def findExistingObject (predicate : Value Nat → Bool) (objects : List (Value Nat)) : Option Nat :=
  (objects.tail.findIdx? predicate).map (· + 1)

def newObject : Encoding Nat :=
  modifyGet fun ctx => (ctx.next, { ctx with next := ctx.next + 1 })

def addObject (obj : Value Nat) : Encoding Nat :=
  modifyGet fun ctx => (ctx.objects.length, { ctx with objects := ctx.objects ++ [obj] })

def setObject (uid : Nat) (obj : Value Nat) : Encoding Unit :=
  modify fun ctx => { ctx with objects := ctx.objects.set uid obj }

def getClass [HashOrder] (description : List String) : Encoding Nat := do
  let canonicalName := description.headD ""
  match (← get).classes.lookup canonicalName with
  | some uid => return uid
  | none =>
    let spec ← newObject
    let hierarchy ← newObject
    let uid ← addObject (classSpec spec hierarchy description)
    modify fun ctx => { ctx with classes := (canonicalName, uid) :: ctx.classes }
    return uid

def encodeScalar (s : Scalar) : Encoding Nat := do
  match findExistingObject (fun e => compareValuesEq e (.scalar s)) (← get).objects with
  | some uid => return uid
  | none => addObject (.scalar s)

def encodeBoolean (val : Bool) : Encoding Nat := encodeScalar (.boolean val)

def encodeInteger (val : Int64) : Encoding Nat := encodeScalar (.integer val)

/-- The parameter is a `float`, and gets an integer. -/
def encodeFloat (val : Int64) : Encoding Nat :=
  encodeScalar (.float (.ofNat (BinaryFormat.binary32.ofInt val.toInt)))

def encodeDouble (val : Int64) : Encoding Nat :=
  encodeScalar (.double (.ofNat (BinaryFormat.binary64.ofInt val.toInt)))

def encodeString (str : Str) : Encoding Nat := encodeScalar (.string str)

def encodeNumber (n : NSNumber) : Encoding Nat :=
  match n with
  | .boolean val => encodeBoolean val
  | .integer val => encodeInteger val
  | .float _ => do encodeFloat (← n.toInteger)
  | .double _ => do encodeDouble (← n.toInteger)

/-- What `encode_array` and `encode_set` do. -/
def encodeElements [HashOrder] (description : List String) (encodeAll : Encoding (List Nat)) :
    Encoding Nat := do
  let object ← newObject
  let uid ← addObject (.dict object [])
  let objs ← newObject
  let uids ← encodeAll
  let cls ← getClass description
  setObject uid (newDict object [("NS.objects", .array objs (uids.map uidValue)),
    ("$class", uidValue cls)])
  return uid

def encodeDictionary [HashOrder] (encodeEntries : Encoding (List (Nat × Nat))) : Encoding Nat := do
  let object ← newObject
  let uid ← addObject (.dict object [])
  let keys ← newObject
  let objs ← newObject
  let uids ← encodeEntries
  let cls ← getClass dictionaryClass
  setObject uid (newDict object [("NS.keys", .array keys (uids.map fun e => uidValue e.1)),
    ("NS.objects", .array objs (uids.map fun e => uidValue e.2)), ("$class", uidValue cls)])
  return uid

mutual
/-- `encode_value`. Without an encoder, a null pointer is called. -/
def encodeValue [HashOrder] : NSObject → Encoding Nat
  | .null => return 0
  | .number n => encodeNumber n
  | .string str => encodeString str
  | .dictionary entries => encodeDictionary (encodeEntries entries)
  | .array elements => encodeElements arrayClass (encodeAll elements)
  | .set items => encodeElements setClass (encodeAll items)
  | .data _ | .dictionaryRaw _ | .date _ | .error .. | .tapMessage _ => failure
def encodeAll [HashOrder] : List NSObject → Encoding (List Nat)
  | [] => return []
  | obj :: rest => do
    let uid ← encodeValue obj
    return uid :: (← encodeAll rest)
def encodeEntries [HashOrder] : List (Str × NSObject) → Encoding (List (Nat × Nat))
  | [] => return []
  | (key, val) :: rest => do
    let key ← encodeString key
    let obj ← encodeValue val
    return (key, obj) :: (← encodeEntries rest)
end

def initial : EncodingContext where
  objects := [.scalar (.string (.ofString "$null"))]
  next := 3

def document [HashOrder] (root : Nat) (objects : List (Value Nat)) : Value Nat :=
  newDict 0 [("$version", .scalar (.integer 100000)), ("$objects", .array 1 objects),
    ("$archiver", .scalar (.string (.ofString "NSKeyedArchiver"))),
    ("$top", newDict 2 [("root", uidValue root)])]

def archive [HashOrder] (obj : NSObject) : Option (Value Nat) := do
  let (root, ctx) ← encodeValue obj initial
  return document root ctx.objects

/-- `encode` -/
def encode [GLib] [HashOrder] : NSObject → Option (List UInt8)
  | .null => some []
  | obj => do
    let (array, length) ← toBinary (← archive obj)
    return array.take length.toInt.toNat

inductive PlistError
  | invalidData (message : String)
  | keyNotFound (message : String)
  | invalidIndex (message : String)
  | typeMismatch (message : String)
  deriving DecidableEq, Repr

def PlistError.message : PlistError → String
  | .invalidData m | .keyNotFound m | .invalidIndex m | .typeMismatch m => m

inductive Failure
  | error (e : Error)
  | plist (e : PlistError)
  | aborted
  | outOfFuel
  deriving DecidableEq, Repr

/-- `PlistDict.get_value`, for a type. -/
def dictValue (type : Tree → Option α) (dict : List (Str × Tree)) (key : String) :
    Except Failure α :=
  match dict.lookup (.ofString key) with
  | none => throw (.plist (.keyNotFound ("Key '" ++ key ++ "' does not exist")))
  | some val =>
    match type val with
    | none => throw (.plist (.typeMismatch ("Key '" ++ key ++ "' does not have the expected type")))
    | some a => return a

/-- `PlistArray.get_value`, for a type. -/
def arrayValue (type : Tree → Option α) (elements : List Tree) (index : Int) : Except Failure α :=
  if index < 0 then throw (.plist (.invalidIndex "Array element does not exist"))
  else
    match elements[index.toNat]? with
    | none => throw (.plist (.invalidIndex "Array element does not exist"))
    | some val =>
      match type val with
      | none => throw (.plist (.typeMismatch "Array element does not have the expected type"))
      | some a => return a

def asInteger : Tree → Option Int64
  | .scalar (.integer i) => some i
  | _ => none

def asDouble : Tree → Option UInt64
  | .scalar (.double bits) => some bits
  | _ => none

def asString : Tree → Option Str
  | .scalar (.string s) => some s
  | _ => none

def asUid : Tree → Option UInt64
  | .scalar (.uid u) => some u
  | _ => none

def asArray : Tree → Option (List Tree)
  | .array _ elements => some elements
  | _ => none

def asDict : Tree → Option (List (Str × Tree))
  | .dict _ dict => some dict
  | _ => none

/-- A uid as an `int` -/
def indexOf (uid : UInt64) : Int := uid.toUInt32.toInt32.toInt

inductive Decoder
  | dictionary
  | array
  | date
  | error
  | tapMessage
  deriving DecidableEq, Repr

def decoders : List (String × Decoder) :=
  [("NSDictionary", .dictionary), ("NSArray", .array), ("NSDate", .date), ("NSError", .error),
    ("DTTapMessage", .tapMessage), ("DTSysmonTapMessage", .tapMessage),
    ("DTActivityTraceTapMessage", .tapMessage), ("DTTapStatusMessage", .tapMessage),
    ("DTTapHeartbeatMessage", .tapMessage), ("DTKTraceTapMessage", .tapMessage)]

def decoderFor (name : Str) : Option Decoder :=
  (decoders.find? fun d => .ofString d.1 = name).map Prod.snd

def findDecoder : List Tree → Except Failure (Option Decoder)
  | [] => return none
  | val :: rest => do
    let name ← arrayValue asString [val] 0
    match decoderFor name with
    | some decoder => return some decoder
    | none => findDecoder rest

def getDecoder (klass : List (Str × Tree)) : Except Failure Decoder := do
  let hierarchy ← dictValue asArray klass "$classes"
  match ← findDecoder hierarchy with
  | some decoder => return decoder
  | none =>
    let name ← dictValue asString klass "$classname"
    throw (.error (.notSupported
      ("Missing NSKeyedArchive decoder for type “" ++ name.text ++ "”")))

def decodeScalar : Scalar → Option NSObject
  | .boolean val => some (.number (.boolean val))
  | .integer val => some (.number (.integer val))
  | .float bits => some (.number (.float bits))
  | .double bits => some (.number (.double bits))
  | .string s => some (.string s)
  | .data bytes => some (.data bytes)
  | .null | .date _ | .uid _ => none

/-- `storage[key] = val` in a map from objects: the key that is there stays. -/
def setRaw (key val : NSObject) : List (NSObject × NSObject) → List (NSObject × NSObject)
  | [] => [(key, val)]
  | (k, v) :: rest => if k.isEqualTo key then (k, val) :: rest else (k, v) :: setRaw key val rest

section
variable (decodeValue : UInt64 → Except Failure NSObject)

def decodeAt (elements : List Tree) (i : Nat) : Except Failure NSObject := do
  decodeValue (← arrayValue asUid elements i)

def decodeStringKeys (keys : List Tree) : (n i : Nat) → Except Failure (List Str)
  | 0, _ => return []
  | n + 1, i => do
    match ← decodeAt decodeValue keys i with
    | .string str => return str :: (← decodeStringKeys keys n (i + 1))
    | _ => return []

def decodeEntries (objs : List Tree) :
    List Str → (i : Nat) → List (Str × NSObject) → Except Failure (List (Str × NSObject))
  | [], _, storage => return storage
  | key :: rest, i, storage => do
    let obj ← decodeAt decodeValue objs i
    decodeEntries objs rest (i + 1) (setValue key obj storage)

def decodeRawEntries (keys objs : List Tree) :
    (n i : Nat) → List (NSObject × NSObject) → Except Failure (List (NSObject × NSObject))
  | 0, _, storage => return storage
  | n + 1, i, storage => do
    let key ← decodeAt decodeValue keys i
    let obj ← decodeAt decodeValue objs i
    decodeRawEntries keys objs n (i + 1) (setRaw key obj storage)

def decodeDictionary (dict : List (Str × Tree)) : Except Failure NSObject := do
  let keys ← dictValue asArray dict "NS.keys"
  let objs ← dictValue asArray dict "NS.objects"
  let stringKeys ← decodeStringKeys decodeValue keys keys.length 0
  if stringKeys.length = keys.length then
    return .dictionary (← decodeEntries decodeValue objs stringKeys 0 [])
  else
    return .dictionaryRaw (← decodeRawEntries decodeValue keys objs keys.length 0 [])

def decodeElements (objs : List Tree) : (n i : Nat) → Except Failure (List NSObject)
  | 0, _ => return []
  | n + 1, i => do
    let obj ← decodeAt decodeValue objs i
    return obj :: (← decodeElements objs n (i + 1))

def decodeArray (dict : List (Str × Tree)) : Except Failure NSObject := do
  let objs ← dictValue asArray dict "NS.objects"
  return .array (← decodeElements decodeValue objs objs.length 0)

def decodeDate (dict : List (Str × Tree)) : Except Failure NSObject := do
  return .date (← dictValue asDouble dict "NS.time")

def decodeError (dict : List (Str × Tree)) : Except Failure NSObject := do
  let .string domain ← decodeValue (← dictValue asUid dict "NSDomain")
    | throw (.error (.protocol "Malformed NSError"))
  let code ← dictValue asInteger dict "NSCode"
  let userInfo ← decodeValue (← dictValue asUid dict "NSUserInfo")
  match userInfo with
  | .null | .dictionary _ => return .error domain code userInfo
  | _ => throw (.error (.protocol "Malformed NSError"))

def decodeTapMessage (dict : List (Str × Tree)) : Except Failure NSObject := do
  return .tapMessage (← decodeValue (← dictValue asUid dict "DTTapMessagePlist"))

def Decoder.decode (decoder : Decoder) (dict : List (Str × Tree)) : Except Failure NSObject :=
  match decoder with
  | .dictionary => decodeDictionary decodeValue dict
  | .array => decodeArray decodeValue dict
  | .date => decodeDate dict
  | .error => decodeError decodeValue dict
  | .tapMessage => decodeTapMessage decodeValue dict

def decodeObject (objects : List Tree) (val : Tree) : Except Failure NSObject :=
  match val with
  | .dict _ dict => do
    let cls ← dictValue asUid dict "$class"
    let klass ← arrayValue asDict objects (indexOf cls)
    (← getDecoder klass).decode decodeValue dict
  | .scalar s =>
    match decodeScalar s with
    | some obj => return obj
    | none => throw (.error (.notSupported ("Unsupported NSKeyedArchive type: " ++ val.typeName)))
  | .array .. =>
    throw (.error (.notSupported ("Unsupported NSKeyedArchive type: " ++ val.typeName)))

end

def decodeValue (objects : List Tree) : (fuel : Nat) → (uid : UInt64) → Except Failure NSObject
  | 0, _ => throw .outOfFuel
  | fuel + 1, uid =>
    if uid = 0 then return .null
    else do
      let val ← arrayValue some objects (indexOf uid)
      decodeObject (decodeValue objects fuel) objects val

def Failure.ofStop : Stop → Failure
  | .invalidData message | .io message => .plist (.invalidData message)
  | .aborted => .aborted
  | .outOfFuel => .outOfFuel

def decodeDocument (fuel : Nat) (plist : List (Str × Tree)) : Except Failure NSObject := do
  let objects ← dictValue asArray plist "$objects"
  let root ← dictValue asUid (← dictValue asDict plist "$top") "root"
  decodeValue objects fuel root

/-- `decode`. The parser has fuel of its own. -/
def decode [GLib] (parserFuel fuel : Nat) (data : List UInt8) : Except Failure NSObject :=
  match (BinaryParser.parse parserFuel data).mapError .ofStop >>= decodeDocument fuel with
  | .error (.plist e) => throw (.error (.protocol e.message))
  | result => result

end NSKeyedArchive

end FridaCore.Fruity
