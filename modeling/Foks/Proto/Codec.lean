/-
  Schema-oriented decoding of Snowpack values (`foks-proto`, `codec.rs` and `error.rs`).

  Each reader takes a value apart in one way and fails with a typed error otherwise. Its
  `_eq_ok` lemma says which values it accepts, so that a decoder built from readers is
  taken apart by rewriting with them.
-/
import Foks.Lib.Utf8
import Foks.Snowpack.Canonical

namespace Foks.Proto

open Foks.Lib Foks.Snowpack

/-- The protocol errors of the readers modelled here. -/
inductive Error where
  | snowpack (error : Snowpack.Error)
  | type (expected found : String)
  | fieldCount (expected found : Nat)
  | variantTag (expected found : List UInt8)
  | unknownEnum (kind : String) (value : UInt64)
  | length (kind : String) (expected found : Nat)
  | integerRange (kind : String)
  | entityType (found : UInt8)
  | wrongEntityType (expected found : UInt8)
  | utf8
  deriving DecidableEq

def valueName : Value → String
  | .null => "null"
  | .bool _ => "boolean"
  | .unsigned _ => "unsigned integer"
  | .negative _ => "negative integer"
  | .binary _ => "binary"
  | .text _ => "text"
  | .array _ => "array"
  | .variantNone | .variant _ _ => "variant"

def typeError (expected : String) (value : Value) : Error := .type expected (valueName value)

/-- `decode`, with the protocol error. -/
def decodeValue (bytes : List UInt8) : Except Error Value := (decode bytes).mapError .snowpack

/-- `encode`, with the protocol error. -/
def encodeValue (value : Value) : Except Error (List UInt8) := (encode value).mapError .snowpack

def array (value : Value) (expected : Nat) : Except Error (List Value) :=
  match value with
  | .array values =>
    if values.length ≠ expected then .error (.fieldCount expected values.length) else .ok values
  | _ => .error (typeError "array" value)

def arrayAtLeast (value : Value) (expected : Nat) : Except Error (List Value) :=
  match value with
  | .array values =>
    if values.length < expected then .error (.fieldCount expected values.length) else .ok values
  | _ => .error (typeError "array" value)

def list {α : Type} (value : Value) (parser : Value → Except Error α) : Except Error (List α) :=
  match value with
  | .null => .ok []
  | .array values => values.mapM parser
  | _ => .error (typeError "list or null" value)

def variant (value : Value) (expected : List UInt8) : Except Error Value :=
  match value with
  | .variant tag payload =>
    if tag ≠ expected then .error (.variantTag expected tag) else .ok payload
  | _ => .error (typeError "one-case variant" value)

def unsigned (value : Value) : Except Error UInt64 :=
  match value with
  | .unsigned value => .ok value
  | _ => .error (typeError "unsigned integer" value)

def expectUnsigned (value : Value) (kind : String) (expected : UInt64) : Except Error Unit := do
  let found ← unsigned value
  if found ≠ expected then .error (.unknownEnum kind found) else .ok ()

def binary (value : Value) : Except Error (List UInt8) :=
  match value with
  | .binary bytes => .ok bytes
  | _ => .error (typeError "binary" value)

def fixedBlob (n : Nat) (value : Value) (kind : String) : Except Error (FixedBytes n) := do
  let bytes ← binary value
  okOr (.length kind n bytes.length) (FixedBytes.ofBytes? n bytes)

def option {α : Type} (value : Value) (parser : Value → Except Error α) :
    Except Error (Option α) :=
  if value = .null then .ok none else (parser value).map some

def boolean (value : Value) : Except Error Bool :=
  match value with
  | .bool value => .ok value
  | _ => .error (typeError "boolean" value)

def integer (value : Value) : Except Error Int64 :=
  match value with
  | .unsigned value =>
    if value.toNat < 2 ^ 63 then .ok (Int64.ofNat value.toNat) else .error (.integerRange "i64")
  | .negative value => .ok value
  | _ => .error (typeError "integer" value)

/-- The bytes of a text that is UTF-8. -/
def text (value : Value) : Except Error (List UInt8) :=
  match value with
  | .text bytes => if (utf8Chars bytes).isSome then .ok bytes else .error .utf8
  | _ => .error (typeError "text" value)

/-- A list, or null for the empty one. -/
def arrayAny (value : Value) : Except Error (List Value) :=
  match value with
  | .null => .ok []
  | .array values => .ok values
  | _ => .error (typeError "array or null" value)

/-- A list on the wire: the empty one is null. -/
def listValue (values : List Value) : Value :=
  if values.isEmpty then .null else .array values

/-! ## What the readers accept -/

variable {value : Value}

theorem decodeValue_eq_ok {bytes : List UInt8} :
    decodeValue bytes = .ok value ↔ Codable value ∧ bytes = wire value :=
  mapError_eq_ok.trans decode_eq_ok_iff

theorem encodeValue_codable (h : Codable value) : encodeValue value = .ok (wire value) := by
  rw [encodeValue, h.encode_eq]
  rfl

variable {values : List Value}

theorem array_eq_ok {expected : Nat} :
    array value expected = .ok values ↔ value = .array values ∧ values.length = expected := by
  cases value with
  | array fields =>
    simp only [array, ite_error_eq_ok, not_not, Except.ok.injEq, Value.array.injEq]
    exact ⟨fun ⟨hlen, h⟩ => ⟨h, h ▸ hlen⟩, fun ⟨h, hlen⟩ => ⟨h ▸ hlen, h⟩⟩
  | _ => simp [array]

theorem arrayAtLeast_eq_ok {expected : Nat} : arrayAtLeast value expected = .ok values ↔
      value = .array values ∧ expected ≤ values.length := by
  cases value with
  | array fields =>
    simp only [arrayAtLeast, ite_error_eq_ok, not_lt, Except.ok.injEq, Value.array.injEq]
    exact ⟨fun ⟨hlen, h⟩ => ⟨h, h ▸ hlen⟩, fun ⟨h, hlen⟩ => ⟨h ▸ hlen, h⟩⟩
  | _ => simp [arrayAtLeast]

theorem list_eq_ok {α : Type} {parser : Value → Except Error α} {out : List α} :
    list value parser = .ok out ↔
      (value = .null ∧ out = []) ∨
        ∃ values, value = .array values ∧ values.mapM parser = .ok out := by
  cases value <;> simp [list, eq_comm]

theorem variant_eq_ok {expected : List UInt8} {payload : Value} :
    variant value expected = .ok payload ↔ value = .variant expected payload := by
  cases value with
  | variant tag inner => simp only [variant, ite_error_eq_ok, not_not, Except.ok.injEq,
      Value.variant.injEq]
  | _ => simp [variant]

theorem unsigned_eq_ok {n : UInt64} : unsigned value = .ok n ↔ value = .unsigned n := by
  cases value <;> simp [unsigned]

theorem expectUnsigned_eq_ok {kind : String} {expected : UInt64} {u : Unit} :
    expectUnsigned value kind expected = .ok u ↔ value = .unsigned expected := by
  cases value <;> simp [expectUnsigned, unsigned]

theorem fixedBlob_eq_ok {n : Nat} {kind : String} {blob : FixedBytes n} :
    fixedBlob n value kind = .ok blob ↔ value = .binary blob.bytes := by
  cases value <;> simp [fixedBlob, binary, FixedBytes.ofBytes?_eq_some]

/-- Reading back a list that was written element by element. -/
theorem list_listValue {α : Type} {parser : Value → Except Error α} {value : α → Value}
    {items : List α} (h : ∀ a ∈ items, parser (value a) = .ok a) :
    list (listValue (items.map value)) parser = .ok items := by
  cases items with
  | nil => rfl
  | cons a as =>
    refine list_eq_ok.mpr (.inr ⟨_, rfl, mapM_eq_ok_iff.mpr ?_⟩)
    rw [List.forall₂_map_left_iff]
    exact List.forall₂_same.mpr h

theorem size_listValue (values : List Value) :
    (listValue values).size = 1 + Value.sizes values := by
  cases values with
  | nil => rfl
  | cons v vs => rfl

theorem fits_listValue {depth : Nat} : Fits depth (listValue values) ↔
      depth ≤ maxDepth ∧ values.length ≤ u32Max ∧ FitsAll (depth + 1) values := by
  cases values with
  | nil => simp [listValue, Fits, FitsAll]
  | cons v vs => simp [listValue, Fits]

end Foks.Proto
