/-
  Index ranges of teams (`foks-verify`, `team.rs`).

  A bound of a range is a base-256 number with an exponent, or infinity. Bounds are compared by
  value, from the highest significant byte down, without building the number.
-/
import Foks.Lib.Base256
import Foks.Verify.Basic

namespace Foks.Verify

open Foks.Lib Foks.Proto

def maxRationalBaseLength : Nat := 32
def maxRationalExponentMagnitude : Int := 4096

/-- Infinity has no digits, and a number has few. -/
def validateRational (value : Rational) : Except Error Unit :=
  if value.base.length > maxRationalBaseLength ∨
      value.exponent.toInt < -maxRationalExponentMagnitude ∨
      maxRationalExponentMagnitude < value.exponent.toInt ∨
      (value.infinity ∧ (¬ value.base.isEmpty ∨ value.exponent ≠ 0)) then .error .teamBinding
  else .ok ()

/-- The digits from the first to the last that is not zero, and the exponent of the last. -/
def significant (value : Rational) : List UInt8 × Int :=
  let digits := value.base.dropWhile (· == 0)
  if digits.isEmpty then ([], 0)
  else
    let trailing := (value.base.reverse.takeWhile (· == 0)).length
    (digits.take (digits.length - trailing), value.exponent.toInt + trailing)

/-- The order of two numbers. -/
def compareFinite (left right : Rational) : Ordering :=
  let (leftBase, leftLow) := significant left
  let (rightBase, rightLow) := significant right
  match leftBase.isEmpty, rightBase.isEmpty with
  | true, true => .eq
  | true, false => .lt
  | false, true => .gt
  | false, false =>
    (compare (leftLow + leftBase.length) (rightLow + rightBase.length)).then
      (lexDigits leftBase rightBase)

def compareRationals (left right : Rational) : Except Error Ordering := do
  validateRational left
  validateRational right
  .ok (match left.infinity, right.infinity with
    | true, true => .eq
    | true, false => .gt
    | false, true => .lt
    | false, false => compareFinite left right)

def validateRationalRange (range : RationalRange) : Except Error Unit := do
  let order ← compareRationals range.low range.high
  if order = .gt then .error .teamBinding else .ok ()

def canonicalDefaultTeamIndexRange : RationalRange := ⟨⟨false, [1], 0⟩, ⟨true, [], 0⟩⟩

/-- `a? && b?`: the second is not looked at when the first is false. -/
def bothOk (first second : Except Error Bool) : Except Error Bool := do
  if ← first then second else .ok false

def rationalRangesEqual (left right : RationalRange) : Except Error Bool := do
  validateRationalRange left
  validateRationalRange right
  bothOk ((compareRationals left.low right.low).map (· == .eq))
    ((compareRationals left.high right.high).map (· == .eq))

def rationalRangeIncludes (outer inner : RationalRange) : Except Error Bool := do
  validateRationalRange outer
  validateRationalRange inner
  bothOk ((compareRationals outer.low inner.low).map (· != .gt))
    ((compareRationals outer.high inner.high).map (· != .lt))

def rationalRangeStrictlyBefore (left right : RationalRange) : Except Error Bool := do
  validateRationalRange left
  validateRationalRange right
  (compareRationals left.high right.low).map (· == .lt)

/-- The index range a link brings, if it brings one. -/
def metadataIndexRange (metadata : List ChangeMetadata) : Option RationalRange :=
  metadata.findSome? fun
    | .teamIndexRange range => some range
    | _ => none

def teamEldestIndexRange (change : TeamGroupChange) : Except Error RationalRange := do
  let range ← okOr .teamBinding (metadataIndexRange change.metadata)
  validateRationalRange range
  if range ≠ canonicalDefaultTeamIndexRange then .error .teamBinding else .ok range

/-- A range may only shrink. -/
def transitionIndexRange (change : TeamGroupChange) (previous : RationalRange) :
    Except Error RationalRange :=
  match metadataIndexRange change.metadata with
  | none => .ok previous
  | some next => do
    validateRationalRange next
    if ← rationalRangesEqual next previous then .error .teamBinding
    else if ← rationalRangeIncludes previous next then .ok next
    else .error .teamBinding

end Foks.Verify
