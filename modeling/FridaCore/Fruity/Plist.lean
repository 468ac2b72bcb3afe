import Mathlib

/-!
# Property lists

The values of `src/fruity/plist.vala`. A string is its bytes without the NUL at the
end, and reals are their bits. An array or a dict is an object: it has an identity of
type `ι`, by which the values in memory are told apart. What is shared occurs several
times, with the same identity, so a value unfolds the objects it is made of.

`Tree` is what is left of a value if the identities are dropped. There a dict is in
the order of its keys, so that equal dicts are the same; elsewhere it is in the order
in which its hash map is iterated.
-/

namespace FridaCore.Fruity

open List

abbrev Str := List UInt8

inductive Scalar
  | null
  | boolean (b : Bool)
  | integer (i : Int64)
  | float (bits : UInt32)
  | double (bits : UInt64)
  | date (bits : UInt64)
  | data (bytes : List UInt8)
  | string (s : Str)
  | uid (u : UInt64)
  deriving DecidableEq, Repr

inductive Value (ι : Type)
  | scalar (s : Scalar)
  | array (id : ι) (elements : List (Value ι))
  | dict (id : ι) (entries : List (Str × Value ι))
  deriving Repr

abbrev Tree := Value Unit

/-- `Value.type_name` -/
def Value.typeName : Value ι → String
  | .scalar .null => "FridaFruityPlistNull"
  | .scalar (.boolean _) => "gboolean"
  | .scalar (.integer _) => "gint64"
  | .scalar (.float _) => "gfloat"
  | .scalar (.double _) => "gdouble"
  | .scalar (.date _) => "FridaFruityPlistDate"
  | .scalar (.data _) => "GBytes"
  | .scalar (.string _) => "gchararray"
  | .scalar (.uid _) => "FridaFruityPlistUid"
  | .array .. => "FridaFruityPlistArray"
  | .dict .. => "FridaFruityPlistDict"

/-- `PlistDict.set_value`, in the order of the keys. -/
def setValue (key : Str) (val : α) : List (Str × α) → List (Str × α)
  | [] => [(key, val)]
  | (k, v) :: rest =>
    if k < key then (k, v) :: setValue key val rest
    else if k = key then (key, val) :: rest
    else (key, val) :: (k, v) :: rest

def toDict (entries : List (Str × α)) : List (Str × α) :=
  entries.foldl (fun dict (key, val) => setValue key val dict) []

mutual
def Value.content : Value ι → Tree
  | .scalar s => .scalar s
  | .array _ elements => .array () (contents elements)
  | .dict _ entries => .dict () (toDict (entryContents entries))
def contents : List (Value ι) → List Tree
  | [] => []
  | v :: rest => v.content :: contents rest
def entryContents : List (Str × Value ι) → List (Str × Tree)
  | [] => []
  | (key, v) :: rest => (key, v.content) :: entryContents rest
end

def isNanFloat (bits : UInt32) : Bool := bits &&& 0x7fffffff > 0x7f800000

def isNanDouble (bits : UInt64) : Bool := bits &&& 0x7fffffffffffffff > 0x7ff0000000000000

def floatEq (a b : UInt32) : Bool :=
  !isNanFloat a && !isNanFloat b && (a = b || (a ||| b) &&& 0x7fffffff = 0)

def doubleEq (a b : UInt64) : Bool :=
  !isNanDouble a && !isNanDouble b && (a = b || (a ||| b) &&& 0x7fffffffffffffff = 0)

def Scalar.compareEq : Scalar → Scalar → Bool
  | .boolean a, .boolean b => a = b
  | .integer a, .integer b => a = b
  | .float a, .float b => floatEq a b
  | .double a, .double b => doubleEq a b
  | .string a, .string b => a = b
  | .data a, .data b => a = b
  | .null, .null => true
  | .date a, .date b => a = b
  | .uid a, .uid b => a = b
  | _, _ => false

def compareValuesEq [DecidableEq ι] : Value ι → Value ι → Bool
  | .scalar a, .scalar b => a.compareEq b
  | .array a _, .array b _ => a = b
  | .dict a _, .dict b _ => a = b
  | _, _ => false

/-- Whether `hash_value` has a hash for the value, or fails. -/
def hashes : Value ι → Bool
  | .scalar .null | .scalar (.date _) => false
  | _ => true

variable {ι : Type} {P : Value ι → Prop}

@[elab_as_elim]
theorem Value.induct (scalar : ∀ s, P (.scalar s))
    (array : ∀ id elements, (∀ v ∈ elements, P v) → P (.array id elements))
    (dict : ∀ id entries, (∀ e ∈ entries, P e.2) → P (.dict id entries)) (v : Value ι) : P v := by
  refine @Value.rec ι P (fun vs => ∀ v ∈ vs, P v) (fun es => ∀ e ∈ es, P e.2) (fun e => P e.2)
    scalar array dict (by simp) ?_ (by simp) ?_ (fun _ _ h => h) v
  · exact fun v vs hv hvs => forall_mem_cons.mpr ⟨hv, hvs⟩
  · exact fun e es he hes => forall_mem_cons.mpr ⟨he, hes⟩

@[simp] theorem contents_eq_map (vs : List (Value ι)) : contents vs = vs.map Value.content := by
  induction vs with
  | nil => rfl
  | cons v rest ih => simp [contents, ih]

@[simp] theorem entryContents_eq_map (es : List (Str × Value ι)) :
    entryContents es = es.map fun e => (e.1, e.2.content) := by
  induction es with
  | nil => rfl
  | cons e rest ih => simp [entryContents, ih]

section
variable [DecidableEq ι]

mutual
def Value.beq : Value ι → Value ι → Bool
  | .scalar a, .scalar b => a = b
  | .array i as, .array j bs => i = j && beqAll as bs
  | .dict i as, .dict j bs => i = j && beqEntries as bs
  | _, _ => false
def beqAll : List (Value ι) → List (Value ι) → Bool
  | [], [] => true
  | a :: as, b :: bs => a.beq b && beqAll as bs
  | _, _ => false
def beqEntries : List (Str × Value ι) → List (Str × Value ι) → Bool
  | [], [] => true
  | (k, a) :: as, (l, b) :: bs => k = l && a.beq b && beqEntries as bs
  | _, _ => false
end

theorem beqAll_iff (h : ∀ a ∈ as, ∀ b, a.beq b = true ↔ a = b)
    (bs : List (Value ι)) : beqAll as bs = true ↔ as = bs := by
  induction as generalizing bs with
  | nil => cases bs <;> simp [beqAll]
  | cons a as ih =>
    obtain ⟨ha, has⟩ := forall_mem_cons.mp h
    cases bs with
    | nil => simp [beqAll]
    | cons b bs => simp [beqAll, ha, ih has]

theorem beqEntries_iff (h : ∀ e ∈ as, ∀ b, e.2.beq b = true ↔ e.2 = b) (bs : List (Str × Value ι)) :
    beqEntries as bs = true ↔ as = bs := by
  induction as generalizing bs with
  | nil => cases bs <;> simp [beqEntries]
  | cons a as ih =>
    obtain ⟨ha, has⟩ := List.forall_mem_cons.mp h
    cases bs with
    | nil => simp [beqEntries]
    | cons b bs => simp [beqEntries, ha, ih has, Prod.ext_iff]

theorem Value.beq_iff (a b : Value ι) : a.beq b = true ↔ a = b := by
  induction a using Value.induct generalizing b with
  | scalar s => cases b <;> simp [Value.beq]
  | array i as ih => cases b <;> simp [Value.beq, beqAll_iff ih]
  | dict i as ih => cases b <;> simp [Value.beq, beqEntries_iff ih]

instance : DecidableEq (Value ι) := fun a b => decidable_of_iff (a.beq b = true) (a.beq_iff b)

end

end FridaCore.Fruity
