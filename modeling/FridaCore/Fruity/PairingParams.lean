import FridaCore.Base.Buffer
import FridaCore.Support.Except

/-!
# Pairing parameters

`PairingParamsBuilder` and `PairingParamsParser` of `src/fruity/pairing.vala`. A parameter is
a type, a size in one byte and a value; what is longer is cut into several of the same type,
which the parser puts together. Parameters of different types come back as they were added
exactly if they take less than 2³¹ bytes: the length of an array is an `int`.
-/

namespace FridaCore.Fruity

open BufferReader Function Except UInt8 List

inductive PairingParamType
  | method
  | identifier
  | salt
  | publicKey
  | proof
  | encryptedData
  | state
  | error
  | retryDelay
  | signature
  | info
  deriving DecidableEq, Repr

namespace PairingParamType

def raw : PairingParamType → UInt8
  | method => 0
  | identifier => 1
  | salt => 2
  | publicKey => 3
  | proof => 4
  | encryptedData => 5
  | state => 6
  | error => 7
  | retryDelay => 8
  | signature => 10
  | info => 17

def all : List PairingParamType :=
  [method, identifier, salt, publicKey, proof, encryptedData, state, error, retryDelay, signature,
    info]

/-- `param_type_class.get_value` -/
def getValue (rawType : UInt8) : Option PairingParamType := all.find? (·.raw = rawType)

/-- `value_nick` -/
def nick : PairingParamType → String
  | method => "method"
  | identifier => "identifier"
  | salt => "salt"
  | publicKey => "public-key"
  | proof => "proof"
  | encryptedData => "encrypted-data"
  | state => "state"
  | error => "error"
  | retryDelay => "retry-delay"
  | signature => "signature"
  | info => "info"

theorem getValue_raw (type : PairingParamType) : getValue type.raw = some type := by
  cases type <;> decide

theorem nick_injective {a b : PairingParamType} (h : a.nick = b.nick) : a = b := by
  cases a <;> cases b <;> first | rfl | exact absurd h (by decide)

end PairingParamType

/-- A call of one of the `add` methods. The key of `add_public_key` is the raw one. -/
inductive PairingParam
  | method (method : UInt8)
  | identifier (identifier : List UInt8)
  | publicKey (key : List UInt8)
  | proof (proof : List UInt8)
  | encryptedData (bytes : List UInt8)
  | state (state : UInt8)
  | signature (signature : List UInt8)
  | info (info : List UInt8)
  deriving DecidableEq, Repr

namespace PairingParamsBuilder

def beginParam (builder : BufferBuilder) (type : PairingParamType) (size : Nat) : BufferBuilder :=
  (builder.appendData [type.raw]).appendData [.ofNat size]

/-- The loop of `add_blob`, from the cursor on. -/
def addChunks (type : PairingParamType) (builder : BufferBuilder) (data : List UInt8) :
    BufferBuilder :=
  let n := min data.length 255
  let builder := (beginParam builder type n).appendData (data.take n)
  if data.drop n = [] then builder else addChunks type builder (data.drop n)
termination_by data.length
decreasing_by
  have := List.length_pos_iff.mpr ‹_›
  rw [List.length_drop] at this ⊢
  omega

/-- The length of the data is an `int`. -/
def addBlob (builder : BufferBuilder) (type : PairingParamType) (blob : List UInt8) :
    BufferBuilder :=
  addChunks type builder (blob.take (blob.length % 2 ^ 32))

def add (builder : BufferBuilder) : PairingParam → BufferBuilder
  | .method method => (beginParam builder .method 1).appendData [method]
  | .identifier identifier =>
    (beginParam builder .identifier identifier.length).appendData identifier
  | .publicKey key => addBlob builder .publicKey key
  | .proof proof => addBlob builder .proof proof
  | .encryptedData bytes => addBlob builder .encryptedData bytes
  | .state state => (beginParam builder .state 1).appendData [state]
  | .signature signature => addBlob builder .signature signature
  | .info info => addBlob builder .info info

/-- All the calls, and `build`. The size of the buffer is a `uint`: one that does not fit is
cut, and then written outside. -/
def build (params : List PairingParam) : Option (List UInt8) :=
  let builder := params.foldl add {}
  if builder.buffer.length < 2 ^ 32 then some builder.buffer else none

end PairingParamsBuilder

inductive ParamValue
  | string (s : List UInt8)
  | byte (b : UInt8)
  | uint16 (n : UInt16)
  | bytes (data : List UInt8)
  deriving DecidableEq, Repr

/-- `get_data_as_bytes` -/
def ParamValue.data : ParamValue → List UInt8
  | .string s => s ++ [0]
  | .byte b => [b]
  | .uint16 n => leBytes 2 n.toNat
  | .bytes data => data

abbrev Parameters := String → Option ParamValue

namespace PairingParamsParser

def invalidArgument (message : String) : BufferReader.Reading α :=
  throw (.error (.invalidArgument message))

def readValue (type : PairingParamType) (valSize : Nat) : BufferReader.Reading ParamValue :=
  match type with
  | .identifier => return .string (← readFixedString valSize)
  | .state | .error =>
    if valSize ≠ 1 then
      invalidArgument ("Invalid value for '" ++ type.nick ++ "': size=" ++ toString valSize)
    else return .byte (← readUint8)
  | .retryDelay =>
    match valSize with
    | 1 => return .uint16 (← readUint8).toUInt16
    | 2 => return .uint16 (← readUint16)
    | _ => invalidArgument "Invalid value for 'retry-delay'"
  | _ => return .bytes (← readData valSize)

def merge (key : String) (val : ParamValue) : Option ParamValue → BufferReader.Reading ParamValue
  | none => return val
  | some (.bytes part1) => return .bytes (part1 ++ val.data)
  | some _ => invalidArgument ("Unable to merge '" ++ key ++ "' keys: unsupported type")

def readParam (parameters : Parameters) : BufferReader.Reading Parameters := do
  let rawType ← readUint8
  match PairingParamType.getValue rawType with
  | none =>
    invalidArgument ("Unsupported pairing parameter type (0x" ++
      String.ofList (Nat.toDigits 16 rawType.toNat) ++ ")")
  | some type =>
    let valSize ← readUint8
    let val ← readValue type valSize.toNat
    let val ← merge type.nick val (parameters type.nick)
    return Function.update parameters type.nick (some val)

def readParams : (fuel : Nat) → Parameters → BufferReader → Except ReadStop Parameters
  | fuel, parameters, reader =>
    if reader.available = 0 then .ok parameters
    else match fuel with
      | 0 => .error .outOfFuel
      | fuel + 1 => do
        let (parameters, reader) ← readParam parameters reader
        readParams fuel parameters reader

/-- Each turn of the loop takes bytes, so that there are fewer turns than bytes. -/
def parse (pairingParams : List UInt8) : Except ReadStop Parameters :=
  readParams (pairingParams.length + 1) (fun _ => none) (.new pairingParams)

end PairingParamsParser

namespace PairingParamsBuilder

variable {type : PairingParamType} {before data more : List UInt8}

/-- Data that is cut into chunks: there is one left, or a full one and some more. -/
theorem chunks_induct {P : List UInt8 → Prop} (last : ∀ data, data.length ≤ 255 → P data)
    (step : ∀ data more, data.length = 255 → more ≠ [] → P more → P (data ++ more))
    (data : List UInt8) : P data := by
  induction hn : data.length using Nat.strong_induction_on generalizing data with
  | _ n ih =>
    by_cases h : data.length ≤ 255
    · exact last data h
    · have hdrop : (data.drop 255).length = n - 255 := by rw [length_drop, hn]
      rw [← take_append_drop 255 data]
      refine step _ _ (length_take_of_le (by omega)) (fun hnil => ?_)
        (ih (n - 255) (by omega) _ hdrop)
      rw [hnil, length_nil] at hdrop
      omega

theorem beginParam_ofBytes (before : List UInt8) (type : PairingParamType) (n : Nat) :
    beginParam (.ofBytes before) type n = .ofBytes (before ++ [type.raw, .ofNat n]) := by
  simp [beginParam]

theorem addChunks_last (h : data.length ≤ 255) :
    addChunks type (.ofBytes before) data =
      .ofBytes (before ++ type.raw :: .ofNat data.length :: data) := by
  unfold addChunks
  simp [Nat.min_eq_left h, take_length, drop_length, beginParam_ofBytes,
    BufferBuilder.appendData_ofBytes, append_assoc, cons_append, nil_append]

theorem addChunks_append (h : data.length = 255) (hmore : more ≠ []) :
    addChunks type (.ofBytes before) (data ++ more) =
      addChunks type (.ofBytes (before ++ type.raw :: 255 :: data)) more := by
  have hmin : min (data ++ more).length 255 = data.length := by
    rw [length_append]
    omega
  have hbyte : ofNat data.length = 255 := by rw [h]; rfl
  rw [addChunks]
  simp only [hmin, take_left, drop_left, if_neg hmore, beginParam_ofBytes, hbyte,
    BufferBuilder.appendData_ofBytes, append_assoc, cons_append, nil_append]

def blobBytes (type : PairingParamType) (data : List UInt8) : List UInt8 :=
  (addChunks type (.ofBytes []) data).buffer

theorem blobBytes_last (h : data.length ≤ 255) :
    blobBytes type data = type.raw :: .ofNat data.length :: data := by
  rw [blobBytes, addChunks_last h]
  rfl

theorem addChunks_ofBytes (type : PairingParamType) (before data : List UInt8) :
    addChunks type (.ofBytes before) data = .ofBytes (before ++ blobBytes type data) := by
  induction data using chunks_induct generalizing before with
  | last data h => rw [addChunks_last h, blobBytes_last h]
  | step data more h hmore ih =>
    rw [blobBytes, addChunks_append h hmore, addChunks_append h hmore, ih, ih]
    simp

theorem blobBytes_append (h : data.length = 255) (hmore : more ≠ []) :
    blobBytes type (data ++ more) = type.raw :: 255 :: data ++ blobBytes type more := by
  rw [blobBytes, addChunks_append h hmore, addChunks_ofBytes]
  rfl

/-- How many bytes a blob takes: two more for each chunk, of which there is one at least. -/
def blobSize (n : Nat) : Nat := n + 2 * max 1 ((n + 254) / 255)

theorem length_blobBytes (type : PairingParamType) (data : List UInt8) :
    (blobBytes type data).length = blobSize data.length := by
  induction data using chunks_induct with
  | last data h =>
    rw [blobBytes_last h, blobSize]
    simp only [length_cons]
    omega
  | step data more h hmore ih =>
    have hpos := length_pos_iff.mpr hmore
    rw [blobBytes_append h hmore]
    simp only [length_append, length_cons, ih, h, blobSize]
    omega

end PairingParamsBuilder

namespace PairingParam

def type : PairingParam → PairingParamType
  | .method _ => .method
  | .identifier _ => .identifier
  | .publicKey _ => .publicKey
  | .proof _ => .proof
  | .encryptedData _ => .encryptedData
  | .state _ => .state
  | .signature _ => .signature
  | .info _ => .info

def value : PairingParam → ParamValue
  | .method m => .bytes [m]
  | .identifier s => .string s
  | .state b => .byte b
  | .publicKey blob | .proof blob | .encryptedData blob | .signature blob | .info blob =>
    .bytes blob

def cut : PairingParam → PairingParam
  | .publicKey blob => .publicKey (blob.take (blob.length % 2 ^ 32))
  | .proof blob => .proof (blob.take (blob.length % 2 ^ 32))
  | .encryptedData blob => .encryptedData (blob.take (blob.length % 2 ^ 32))
  | .signature blob => .signature (blob.take (blob.length % 2 ^ 32))
  | .info blob => .info (blob.take (blob.length % 2 ^ 32))
  | param => param

def size (param : PairingParam) : Nat :=
  match param.value with
  | .bytes data => PairingParamsBuilder.blobSize data.length
  | .string s => 2 + s.length
  | .byte _ => 3
  | .uint16 _ => 4

def Storable : PairingParam → Prop
  | .identifier s => s.length ≤ 255 ∧ 0 ∉ s
  | _ => True

theorem take_mod_eq {blob : List UInt8} (h : blob.length < 2 ^ 32) :
    blob.take (blob.length % 2 ^ 32) = blob := by
  rw [Nat.mod_eq_of_lt h, take_length]

theorem cut_of_size_lt {param : PairingParam} (h : param.size < 2 ^ 32) : param.cut = param := by
  have hlt : ∀ blob : List UInt8, PairingParamsBuilder.blobSize blob.length < 2 ^ 32 →
      blob.take (blob.length % 2 ^ 32) = blob := by
    intro blob hblob
    refine take_mod_eq ?_
    unfold PairingParamsBuilder.blobSize at hblob
    omega
  cases param <;> first | rfl | rw [cut, hlt _ h]

theorem cut_of_value_eq {param : PairingParam} (h : param.cut.value = param.value) :
    param.cut = param := by
  cases param with
  | method | identifier | state => rfl
  | publicKey blob | proof blob | encryptedData blob | signature blob | info blob =>
    rw [cut, ParamValue.bytes.inj h]

end PairingParam

namespace PairingParamsBuilder

def paramBytes (param : PairingParam) : List UInt8 := (add (.ofBytes []) param).buffer

/-- A parameter is a blob, though it may be one of a single byte, an identifier or a state. -/
theorem paramBytes_cases (param : PairingParam) :
    (∃ data, param.cut.value = .bytes data ∧ paramBytes param = blobBytes param.type data) ∨
      (∃ s, param = .identifier s ∧
        paramBytes param = PairingParamType.identifier.raw :: .ofNat s.length :: s) ∨
      ∃ b, param = .state b ∧ paramBytes param = [PairingParamType.state.raw, 1, b] := by
  cases param with
  | method m =>
    refine .inl ⟨[m], rfl, ?_⟩
    rw [blobBytes_last (by simp)]
    rfl
  | identifier s =>
    simp [paramBytes, add, beginParam_ofBytes]
  | state b => exact .inr (.inr ⟨b, rfl, rfl⟩)
  | publicKey blob | proof blob | encryptedData blob | signature blob | info blob =>
    exact .inl ⟨_, rfl, rfl⟩

theorem length_paramBytes (param : PairingParam) :
    (paramBytes param).length = param.cut.size := by
  rcases paramBytes_cases param with ⟨data, hvalue, hbytes⟩ | ⟨s, rfl, hbytes⟩ | ⟨b, rfl, hbytes⟩
  · rw [hbytes, length_blobBytes, PairingParam.size, hvalue]
  · rw [hbytes]
    simp only [length_cons, PairingParam.cut, PairingParam.size, PairingParam.value]
    omega
  · rfl

theorem add_ofBytes (before : List UInt8) (param : PairingParam) :
    add (.ofBytes before) param = .ofBytes (before ++ paramBytes param) := by
  have hblob : ∀ type blob, addBlob (.ofBytes before) type blob =
      .ofBytes (before ++ (addBlob (.ofBytes []) type blob).buffer) := by
    intro type blob
    rw [addBlob, addChunks_ofBytes]
    rfl
  cases param with
  | method | identifier | state => simp [paramBytes, add, beginParam_ofBytes]
  | publicKey blob | proof blob | encryptedData blob | signature blob | info blob => exact hblob _ _

theorem build_eq (params : List PairingParam) : build params =
    if (params.flatMap paramBytes).length < 2 ^ 32 then some (params.flatMap paramBytes)
    else none := by
  have hall : ∀ before, params.foldl add (.ofBytes before) =
      .ofBytes (before ++ params.flatMap paramBytes) := by
    induction params with
    | nil => simp
    | cons param rest ih =>
      intro before
      rw [foldl_cons, add_ofBytes, ih, flatMap_cons, append_assoc]
  have hempty : params.foldl add {} = .ofBytes (params.flatMap paramBytes) := hall []
  rw [build, hempty]
  rfl

theorem length_built (params : List PairingParam) :
    (params.flatMap paramBytes).length = (params.map fun param => param.cut.size).sum := by
  rw [length_flatMap]
  simp [length_paramBytes]

end PairingParamsBuilder

namespace PairingParamsParser

open PairingParamsBuilder

variable {parameters : Parameters} {type : PairingParamType} {excess fuel : Nat}
  {data part rest : List UInt8}

def IsBlob (type : PairingParamType) : Prop :=
  type ≠ .identifier ∧ type ≠ .state ∧ type ≠ .error ∧ type ≠ .retryDelay

theorem isBlob_of_value {param : PairingParam} (h : param.cut.value = .bytes data) :
    IsBlob param.type := by
  cases param <;> first | cases h; done | simp [IsBlob, PairingParam.type]

theorem readValue_blob (h : IsBlob type) (n : Nat) :
    readValue type n = (do return .bytes (← readData n)) := by
  obtain ⟨h1, h2, h3, h4⟩ := h
  cases type <;> first | rfl | contradiction

def Holds (parameters : Parameters) (type : PairingParamType) (part : List UInt8) : Prop :=
  (parameters type.nick = none ∧ part = []) ∨ parameters type.nick = some (.bytes part)

theorem merge_eq (h : Holds parameters type part) (data : List UInt8) :
    merge type.nick (.bytes data) (parameters type.nick) = (return .bytes (part ++ data)) := by
  rcases h with ⟨h, rfl⟩ | h
  · rw [h]
    rfl
  · rw [h]
    rfl

theorem readParam_eq (parameters : Parameters) (type : PairingParamType) (n : UInt8)
    (rest : List UInt8) :
    readParam parameters (overrun excess (type.raw :: n :: rest)) =
      (do
        let val ← readValue type n.toNat
        let val ← merge type.nick val (parameters type.nick)
        return update parameters type.nick (some val)) (overrun excess rest) := by
  unfold readParam
  simp [bind, StateT.bind, readUint8_cons, Except.bind, PairingParamType.getValue_raw]

theorem readParam_chunk (hblob : IsBlob type) (hdata : data.length ≤ 255)
    (h : Holds parameters type part) :
    readParam parameters (overrun excess (type.raw :: .ofNat data.length :: data ++ rest)) =
      .ok (update parameters type.nick (some (.bytes (part ++ data))),
        overrun excess rest) := by
  have hsize : (ofNat data.length).toNat = data.length := by
    rw [toNat_ofNat']
    omega
  have hread : readData data.length (overrun excess (data ++ rest)) =
      .ok (data, overrun excess rest) := readData_append rfl
  rw [cons_append, cons_append, readParam_eq, hsize, readValue_blob hblob]
  simp only [bind_assoc, pure_bind, merge_eq h]
  simp only [bind, StateT.bind, hread, bind]
  rfl

theorem readParam_new (h : parameters type.nick = none)
    (hval : readValue type n.toNat (overrun excess (data ++ rest)) =
      .ok (val, overrun excess rest)) :
    readParam parameters (overrun excess (type.raw :: n :: data ++ rest)) =
      .ok (update parameters type.nick (some val), overrun excess rest) := by
  rw [cons_append, cons_append, readParam_eq, h]
  simp only [bind, StateT.bind, hval, bind]
  rfl

theorem readParams_succ (hne : data ≠ [])
    (h : readParam parameters (overrun excess (data ++ rest)) =
      .ok (parameters', overrun excess rest)) :
    readParams (fuel + 1) parameters (overrun excess (data ++ rest)) =
      readParams fuel parameters' (overrun excess rest) := by
  have hpos := length_pos_iff.mpr hne
  have havailable : (overrun excess (data ++ rest)).available ≠ 0 := by
    change (data ++ rest).length + excess ≠ 0
    rw [length_append]
    omega
  rw [readParams, if_neg havailable]
  simp [h, bind, Except.bind]

/-- Reading goes on behind some bytes, with other parameters and enough fuel. -/
def ReadsTo (parameters : Parameters) (bytes : List UInt8) (parameters' : Parameters) : Prop :=
  ∀ excess rest fuel, (bytes ++ rest).length ≤ fuel → ∃ fuel', rest.length ≤ fuel' ∧
    readParams fuel parameters (overrun excess (bytes ++ rest)) =
      readParams fuel' parameters' (overrun excess rest)

theorem readsTo_nil (parameters : Parameters) : ReadsTo parameters [] parameters :=
  fun _ _ fuel h => ⟨fuel, h, rfl⟩

theorem ReadsTo.append
    (h : ReadsTo parameters bytes parameters₁) (h' : ReadsTo parameters₁ more parameters₂) :
    ReadsTo parameters (bytes ++ more) parameters₂ := by
  intro excess rest fuel hfuel
  rw [append_assoc] at hfuel ⊢
  obtain ⟨fuel₁, hfuel₁, heq₁⟩ := h excess (more ++ rest) fuel hfuel
  obtain ⟨fuel₂, hfuel₂, heq₂⟩ := h' excess rest fuel₁ hfuel₁
  exact ⟨fuel₂, hfuel₂, heq₁.trans heq₂⟩

theorem readsTo_of_readParam (hne : bytes ≠ [])
    (h : ∀ excess rest, readParam parameters (overrun excess (bytes ++ rest)) =
      .ok (parameters', overrun excess rest)) : ReadsTo parameters bytes parameters' := by
  intro excess rest fuel hfuel
  have hpos := length_pos_iff.mpr hne
  rw [length_append] at hfuel
  obtain ⟨n, rfl⟩ : ∃ n, fuel = n + 1 := ⟨fuel - 1, by omega⟩
  exact ⟨n, by omega, readParams_succ hne (h excess rest)⟩

theorem readsTo_blob (hblob : IsBlob type) (h : Holds parameters type part) :
    ReadsTo parameters (blobBytes type data)
      (update parameters type.nick (some (.bytes (part ++ data)))) := by
  induction data using chunks_induct generalizing parameters part with
  | last data hdata =>
    rw [blobBytes_last hdata]
    exact readsTo_of_readParam (by simp) fun excess rest => readParam_chunk hblob hdata h
  | step data more hdata hmore ih =>
    have hbyte : ofNat data.length = 255 := by rw [hdata]; rfl
    have hfirst : ReadsTo parameters (type.raw :: 255 :: data) _ :=
      readsTo_of_readParam (by simp) fun excess rest =>
        hbyte ▸ readParam_chunk hblob hdata.le h
    have hmerged : Holds (update parameters type.nick (some (.bytes (part ++ data)))) type
        (part ++ data) := .inr (update_self ..)
    rw [blobBytes_append hdata hmore]
    have hall := hfirst.append (ih hmerged)
    rwa [update_idem, append_assoc] at hall

theorem readsTo_param {param : PairingParam} (hstore : param.Storable)
    (h : parameters param.type.nick = none) :
    ReadsTo parameters (paramBytes param)
      (update parameters param.type.nick (some param.cut.value)) := by
  rcases paramBytes_cases param with ⟨data, hvalue, hbytes⟩ | ⟨s, rfl, hbytes⟩ | ⟨b, rfl, hbytes⟩
  · rw [hbytes, hvalue]
    exact readsTo_blob (isBlob_of_value hvalue) (.inl ⟨h, rfl⟩)
  · rw [hbytes]
    refine readsTo_of_readParam (by simp) fun excess rest => readParam_new h ?_
    have hsize : (ofNat s.length).toNat = s.length := by
      have := hstore.1
      rw [toNat_ofNat']
      omega
    rw [hsize]
    simp only [readValue, bind, StateT.bind, readFixedString_append rfl hstore.2, bind]
    rfl
  · rw [hbytes]
    refine readsTo_of_readParam (by simp) fun excess rest => readParam_new h ?_
    have hread : readUint8 (overrun excess ([b] ++ rest)) = .ok (b, overrun excess rest) :=
      readUint8_cons b rest
    change (do return .byte (← readUint8) : BufferReader.Reading ParamValue)
        (overrun excess ([b] ++ rest)) = _
    simp only [bind, StateT.bind, hread, bind]
    rfl

def addAll (parameters : Parameters) (params : List PairingParam) : Parameters :=
  params.foldl (fun parameters param =>
    Function.update parameters param.type.nick (some param.cut.value)) parameters

theorem readsTo_all {params : List PairingParam} (hdistinct : (params.map PairingParam.type).Nodup)
    (hstore : ∀ param ∈ params, param.Storable)
    (h : ∀ param ∈ params, parameters param.type.nick = none) :
    ReadsTo parameters (params.flatMap paramBytes) (addAll parameters params) := by
  induction params generalizing parameters with
  | nil => exact readsTo_nil parameters
  | cons param rest ih =>
    obtain ⟨hnew, hrest⟩ := forall_mem_cons.mp h
    obtain ⟨hfirst, hstore⟩ := forall_mem_cons.mp hstore
    rw [map_cons, nodup_cons] at hdistinct
    refine (readsTo_param hfirst hnew).append (ih hdistinct.2 hstore fun other hother => ?_)
    have hne : other.type.nick ≠ param.type.nick := fun heq =>
      hdistinct.1 (PairingParamType.nick_injective heq ▸ mem_map_of_mem hother)
    rw [update_of_ne hne]
    exact hrest other hother

theorem addAll_of_notMem (h : ∀ param ∈ params, param.type.nick ≠ key) :
    addAll parameters params key = parameters key := by
  induction params generalizing parameters with
  | nil => rfl
  | cons param rest ih =>
    obtain ⟨hfirst, hrest⟩ := forall_mem_cons.mp h
    exact (ih hrest).trans (update_of_ne hfirst.symm ..)

theorem addAll_of_mem (hdistinct : (params.map PairingParam.type).Nodup) (h : param ∈ params) :
    addAll parameters params param.type.nick = some param.cut.value := by
  induction params generalizing parameters with
  | nil => cases h
  | cons first rest ih =>
    rw [map_cons, nodup_cons] at hdistinct
    rcases mem_cons.mp h with rfl | h
    · have hother : ∀ other ∈ rest, other.type.nick ≠ param.type.nick := fun other hmem heq =>
        hdistinct.1 (PairingParamType.nick_injective heq ▸ mem_map_of_mem hmem)
      exact (addAll_of_notMem hother).trans (update_self ..)
    · exact ih hdistinct.2 h

theorem readParams_end :
    readParams fuel parameters (overrun excess []) = .ok parameters' ↔
      excess = 0 ∧ parameters' = parameters := by
  have havailable : (overrun excess []).available = 0 ↔ excess = 0 := by simp [overrun]
  constructor
  · intro h
    unfold readParams at h
    split at h
    · next hzero =>
      cases h
      exact ⟨havailable.mp hzero, rfl⟩
    · cases fuel with
      | zero => cases h
      | succ fuel =>
        obtain ⟨e, he⟩ : ∃ e, readUint8 (overrun excess []) = .error e := readUint8_nil
        simp only [readParam, bind, StateT.bind, he, bind] at h
        cases h
  · rintro ⟨hzero, rfl⟩
    unfold readParams
    rw [if_pos (havailable.mpr hzero)]

theorem parse_built (hdistinct : (params.map PairingParam.type).Nodup)
    (hstore : ∀ param ∈ params, param.Storable)
    (hlt : (params.flatMap paramBytes).length < 2 ^ 32) :
    parse (params.flatMap paramBytes) = .ok parameters' ↔
      (params.flatMap paramBytes).length < 2 ^ 31 ∧
        parameters' = addAll (fun _ => none) params := by
  have hreads : ReadsTo (fun _ => none) (params.flatMap paramBytes) _ :=
    readsTo_all hdistinct hstore fun _ _ => rfl
  by_cases h : (params.flatMap paramBytes).length < 2 ^ 31
  · obtain ⟨fuel, -, heq⟩ := hreads 0 [] ((params.flatMap paramBytes).length + 1) (by simp)
    rw [append_nil] at heq
    rw [parse, new_of_lt h, heq, readParams_end]
    exact ⟨fun hok => ⟨h, hok.2⟩, fun hok => ⟨rfl, hok.2⟩⟩
  · obtain ⟨fuel, -, heq⟩ := hreads (2 ^ 64 - 2 ^ 32) []
      ((params.flatMap paramBytes).length + 1) (by simp)
    rw [append_nil] at heq
    rw [parse, new_of_le (by omega) hlt, heq, readParams_end]
    exact iff_of_false (fun hok => absurd hok.1 (by decide)) fun hok => h hok.1

/-- Parameters of different types that have been built are parsed as they were added, exactly
if they do not take 2³¹ bytes. -/
theorem parse_build_iff {params : List PairingParam}
    (hdistinct : (params.map PairingParam.type).Nodup)
    (hstore : ∀ param ∈ params, param.Storable) :
    (∃ bytes parameters, build params = some bytes ∧ parse bytes = .ok parameters ∧
      (∀ param ∈ params, parameters param.type.nick = some param.value) ∧
      ∀ key, (∀ param ∈ params, param.type.nick ≠ key) → parameters key = none) ↔
      (params.map PairingParam.size).sum < 2 ^ 31 := by
  have hlength : (∀ param ∈ params, param.cut = param) →
      (params.flatMap paramBytes).length = (params.map PairingParam.size).sum := by
    intro hcut
    rw [length_built, map_congr_left fun param hparam => by rw [hcut param hparam]]
  rw [build_eq]
  constructor
  · rintro ⟨bytes, parameters, hbuild, hparse, hvalues, -⟩
    split at hbuild
    · next hlt =>
      cases hbuild
      obtain ⟨hsize, rfl⟩ := (parse_built hdistinct hstore hlt).mp hparse
      rwa [← hlength fun param hparam => PairingParam.cut_of_value_eq (Option.some.inj
        ((addAll_of_mem hdistinct hparam).symm.trans (hvalues param hparam)))]
    · cases hbuild
  · intro hsize
    have hcut : ∀ param ∈ params, param.cut = param := by
      intro param hparam
      have hle := single_le_sum (l := params.map PairingParam.size) (by simp) param.size
        (mem_map_of_mem hparam)
      exact PairingParam.cut_of_size_lt (by omega)
    rw [if_pos (by rw [hlength hcut]; omega)]
    refine ⟨_, _, rfl, (parse_built hdistinct hstore (by rw [hlength hcut]; omega)).mpr
      ⟨by rwa [hlength hcut], rfl⟩, fun param hparam => ?_, fun key hkey => ?_⟩
    · rw [addAll_of_mem hdistinct hparam, hcut param hparam]
    · exact addAll_of_notMem hkey

def sampleParams : List PairingParam :=
  [.method 0, .identifier [0x69, 0x64], .publicKey [1, 2, 3], .proof [], .state 3]

theorem parse_build_iff_sample : ∃ bytes parameters, build sampleParams = some bytes ∧
    parse bytes = .ok parameters ∧
    (∀ param ∈ sampleParams, parameters param.type.nick = some param.value) ∧
    ∀ key, (∀ param ∈ sampleParams, param.type.nick ≠ key) → parameters key = none :=
  (parse_build_iff (by decide) (by simp [sampleParams, PairingParam.Storable])).mpr (by decide)

theorem not_parsed_of_le (h : 2 ^ 31 ≤ blob.length)
    (hlt : blob.length < 2 ^ 32) : ¬∃ bytes parameters,
    build [.encryptedData blob] = some bytes ∧ parse bytes = .ok parameters := by
  have hlength : ([PairingParam.encryptedData blob].flatMap paramBytes).length =
      blobSize blob.length := by
    rw [length_built, map_singleton, sum_singleton, PairingParam.cut,
      PairingParam.take_mod_eq hlt]
    rfl
  rintro ⟨bytes, parameters, hbuild, hparse⟩
  rw [build_eq] at hbuild
  split at hbuild
  · next hfits =>
    cases hbuild
    obtain ⟨hsize, -⟩ := (parse_built (by simp) (by simp [PairingParam.Storable]) hfits).mp hparse
    rw [hlength, blobSize] at hsize
    omega
  · cases hbuild

/-- A blob of 2³¹ bytes, for which the parser goes on behind the end. -/
theorem largeBlob_not_parsed : ∃ blob : List UInt8, ¬∃ bytes parameters,
    build [.encryptedData blob] = some bytes ∧ parse bytes = .ok parameters := by
  have hlength : (replicate (2 ^ 31) (0 : UInt8)).length = 2 ^ 31 := length_replicate ..
  exact ⟨_, not_parsed_of_le (Nat.le_of_eq hlength.symm) (by rw [hlength]; decide)⟩

end PairingParamsParser

end FridaCore.Fruity
