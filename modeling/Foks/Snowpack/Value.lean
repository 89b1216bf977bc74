/-
  Snowpack values, and the errors of its codec.

  `Value` is the tree the wire format carries (`foks-snowpack`, `lib.rs`): positional arrays,
  variants with at most one short tag, integers split by sign. `Value.size` counts its nodes;
  the decoder charges that count against `maximumDecodedValues`, and its nesting against
  `maxDepth`.
-/
import Foks.Lib.Outcome
import Foks.Lib.BigEndian

namespace Foks.Snowpack

/-- Maximum number of positional or variant steps below the root value. -/
def maxDepth : Nat := 64

/-- Cap on the total decoded tree (`MAXIMUM_DECODED_VALUES`). -/
def maximumDecodedValues : Nat := 1000000

/-- A Snowpack value. `Variant(None)` is `variantNone`, `Variant(Some((tag, value)))` is
    `variant tag value`. -/
inductive Value where
  | null
  | bool (value : Bool)
  | unsigned (value : UInt64)
  | negative (value : Int64)
  | binary (bytes : List UInt8)
  | text (bytes : List UInt8)
  | array (values : List Value)
  | variantNone
  | variant (tag : List UInt8) (value : Value)

namespace Value

/-- Induction over a value: at an array the claim is known for every element. -/
@[induction_eliminator]
theorem ind {P : Value → Prop} (null : P .null) (bool : ∀ b, P (.bool b))
    (unsigned : ∀ v, P (.unsigned v)) (negative : ∀ v, P (.negative v))
    (binary : ∀ bs, P (.binary bs)) (text : ∀ bs, P (.text bs))
    (array : ∀ vs, (∀ v ∈ vs, P v) → P (.array vs)) (variantNone : P .variantNone)
    (variant : ∀ tag v, P v → P (.variant tag v)) (v : Value) : P v :=
  @Value.rec P (fun vs => ∀ v ∈ vs, P v) null bool unsigned negative binary text array
    variantNone variant (fun _ h => nomatch h)
    (fun _ _ hv hvs w hw => (List.mem_cons.mp hw).elim (fun e => e ▸ hv) (hvs w)) v

mutual

/-- Equality of values, as a test. -/
def beq : Value → Value → Bool
  | .null, .null => true
  | .bool a, .bool b => a == b
  | .unsigned a, .unsigned b => a == b
  | .negative a, .negative b => a == b
  | .binary a, .binary b => a == b
  | .text a, .text b => a == b
  | .array a, .array b => beqs a b
  | .variantNone, .variantNone => true
  | .variant s a, .variant t b => s == t && beq a b
  | _, _ => false

def beqs : List Value → List Value → Bool
  | [], [] => true
  | v :: vs, w :: ws => beq v w && beqs vs ws
  | _, _ => false

end

theorem beqs_iff (vs ws : List Value) (h : ∀ v ∈ vs, ∀ w, beq v w = true ↔ v = w) :
    beqs vs ws = true ↔ vs = ws := by
  induction vs generalizing ws with
  | nil => cases ws <;> simp [beqs]
  | cons v vs ih =>
    cases ws with
    | nil => simp [beqs]
    | cons w ws =>
      have hv := h v List.mem_cons_self w
      have hvs := ih ws (fun u hu => h u (List.mem_cons_of_mem _ hu))
      simp [beqs, hv, hvs]

theorem beq_iff (v w : Value) : beq v w = true ↔ v = w := by
  induction v generalizing w with
  | array vs ih => cases w <;> simp [beq, beqs_iff vs _ ih]
  | variant tag v ih => cases w <;> simp [beq, ih]
  | _ => cases w <;> simp [beq]

instance : DecidableEq Value := fun v w => decidable_of_iff _ (beq_iff v w)

mutual

/-- The number of values in the tree, the root included. -/
def size : Value → Nat
  | .array vs => 1 + sizes vs
  | .variant _ v => 1 + v.size
  | .null | .bool _ | .unsigned _ | .negative _ | .binary _ | .text _ | .variantNone => 1

def sizes : List Value → Nat
  | [] => 0
  | v :: vs => v.size + sizes vs

end

theorem size_pos (v : Value) : 1 ≤ v.size := by
  cases v <;> simp [size]

theorem sizes_eq_sum (vs : List Value) : sizes vs = (vs.map size).sum := by
  induction vs with
  | nil => rfl
  | cons v vs ih => rw [sizes, ih, List.map_cons, List.sum_cons]

theorem length_le_sizes (vs : List Value) : vs.length ≤ sizes vs := by
  induction vs with
  | nil => simp [sizes]
  | cons v vs ih =>
    have := size_pos v
    simp only [sizes, List.length_cons]
    omega

theorem size_le_sizes {v : Value} {vs : List Value} (h : v ∈ vs) : v.size ≤ sizes vs := by
  induction vs with
  | nil => cases h
  | cons w vs ih =>
    simp only [sizes]
    rcases List.mem_cons.mp h with rfl | h
    · omega
    · have := ih h
      omega

end Value

/-! ## Errors -/

/-- Location within a positional value. -/
inductive PathSegment where
  | index (index : Nat)
  | variant (tag : List UInt8)
  deriving DecidableEq

inductive ErrorKind where
  | unexpectedEof
  | trailingBytes
  | reservedMarker (marker : UInt8)
  | unsupportedFloat
  | unsupportedExtension
  | arbitraryMap
  | invalidVariantSize (size : Nat)
  | invalidVariantTag
  | emptyArray
  | nonMinimal (which : String)
  | nonCanonicalSignable (which : String)
  | nonNegativeSignedInteger
  | lengthOverflow
  | depthLimit
  | valueLimit
  deriving DecidableEq

/-- An offset-bearing Snowpack failure. -/
structure Error where
  kind : ErrorKind
  offset : Nat
  path : List PathSegment
  deriving DecidableEq

end Foks.Snowpack
