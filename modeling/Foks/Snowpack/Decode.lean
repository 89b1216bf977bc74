/-
  The Snowpack decoder (`foks-snowpack`, `decode.rs`).

  `Decoder.value` reads one value: it charges the value budget, checks the depth, and
  dispatches on the marker byte. The recursion is on the levels left below `maxDepth`; at the
  last level the depth check of `enter` has already failed, so a run never ends for lack of
  levels.

  `decode` asks for the whole input, `decodePrefix` also returns the bytes consumed, and
  `validateSignable` runs the stricter rules for signed and hashed objects: `array16` headers
  of 16 to 31 elements are refused there. The decoder's `sensitive` flag only redacts the tags
  in error paths; the entry points modelled here leave it off.
-/
import Foks.Snowpack.Encode

namespace Foks.Snowpack

open Foks.Lib

structure Decoder where
  input : List UInt8
  offset : Nat
  path : List PathSegment
  values : Nat
  /-- The value budget, `maximumDecodedValues` at every entry point. -/
  limit : Nat
  /-- Enforce the stricter canonical rules for signable encodings. -/
  signable : Bool

namespace Decoder

def new (input : List UInt8) (signable : Bool) : Decoder :=
  ⟨input, 0, [], 0, maximumDecodedValues, signable⟩

section

variable (d : Decoder)

def error (kind : ErrorKind) : Error := ⟨kind, d.offset, d.path⟩

def byte : Except Error (UInt8 × Decoder) :=
  match d.input[d.offset]? with
  | none => .error (d.error .unexpectedEof)
  | some b => .ok (b, { d with offset := d.offset + 1 })

/-- `borrowed_bytes`, `bytes`: the next `length` bytes. -/
def bytes (length : Nat) : Except Error (List UInt8 × Decoder) :=
  match checkedAdd d.offset length with
  | none => .error (d.error .lengthOverflow)
  | some stop =>
    if d.input.length < stop then .error (d.error .unexpectedEof)
    else .ok ((d.input.drop d.offset).take length, { d with offset := stop })

/-- `u16`, `u32`, `u64`: a big-endian number of `width` bytes. -/
def uint (width : Nat) : Except Error (Nat × Decoder) := do
  let (bs, d) ← d.bytes width
  .ok (ofBE bs, d)

/-- The same read as a two's complement number. -/
def sint (width : Nat) : Except Error (Int × Decoder) := do
  let (bs, d) ← d.bytes width
  .ok (signedOfBE bs, d)

def binary (d : Decoder) (length : Nat) : Except Error (Value × Decoder) := do
  let (bs, d) ← d.bytes length
  .ok (.binary bs, d)

def text (d : Decoder) (length : Nat) : Except Error (Value × Decoder) := do
  let (bs, d) ← d.bytes length
  .ok (.text bs, d)

/-- A number of `width` bytes that the shorter forms, which end at `shorter`, cannot hold. -/
def above (width shorter : Nat) (which : String) : Except Error (Nat × Decoder) := do
  let (n, d) ← d.uint width
  if n ≤ shorter then .error (d.error (.nonMinimal which)) else .ok (n, d)

def unsignedAbove (width shorter : Nat) : Except Error (Value × Decoder) := do
  let (n, d) ← d.above width shorter "unsigned integer"
  .ok (.unsigned (UInt64.ofNat n), d)

/-- `signed`: a negative integer behind a marker whose shorter forms begin at `shorter`. -/
def signedBelow (width : Nat) (shorter : Int) : Except Error (Value × Decoder) := do
  let (n, d) ← d.sint width
  if 0 ≤ n then .error (d.error .nonNegativeSignedInteger)
  else if shorter ≤ n then .error (d.error (.nonMinimal "signed integer"))
  else .ok (.negative (Int64.ofInt n), d)

def push (segment : PathSegment) : Decoder :=
  { d with path := d.path ++ [segment] }

/-- Leaving a segment: back to the path before it was pushed. -/
def pop (path : List PathSegment) : Decoder := { d with path := path }

/-- The loop over `count` array elements, each read by `item` one segment deeper. -/
def arrayItems (item : Decoder → Except Error (Value × Decoder)) :
    Nat → Nat → Decoder → Except Error (List Value × Decoder)
  | 0, _, d => .ok ([], d)
  | count + 1, index, d => do
    let (v, done) ← item (d.push (.index index))
    let (vs, last) ← arrayItems item count (index + 1) (done.pop d.path)
    .ok (v :: vs, last)

def array (d : Decoder) (item : Decoder → Except Error (Value × Decoder)) (length : Nat) :
    Except Error (Value × Decoder) :=
  if d.input.length - d.offset < length then .error (d.error .unexpectedEof)
  else if d.values + length > d.limit then .error (d.error .valueLimit)
  else do
    let (vs, last) ← arrayItems item length 0 d
    .ok (.array vs, last)

def variant (d : Decoder) (item : Decoder → Except Error (Value × Decoder)) :
    Except Error (Value × Decoder) := do
  let (marker, d) ← d.byte
  if ¬ (0xa0 ≤ marker ∧ marker ≤ 0xbf) then .error (d.error .invalidVariantTag)
  else do
    let (tag, d) ← d.bytes (marker &&& 0x1f).toNat
    let (v, done) ← item (d.push (.variant tag))
    .ok (.variant tag v, done.pop d.path)

variable (marker : UInt8)

/-- Markers `0xc4..=0xc6`. -/
def binaryForm : Except Error (Value × Decoder) :=
  if marker = 0xc4 then do
    let (length, d) ← d.byte
    d.binary length.toNat
  else if marker = 0xc5 then do
    let (length, d) ← d.above 2 255 "binary"
    d.binary length
  else do
    let (length, d) ← d.above 4 65535 "binary"
    d.binary length

/-- Markers `0xcc..=0xcf`. -/
def unsignedForm : Except Error (Value × Decoder) :=
  if marker = 0xcc then d.unsignedAbove 1 0x7f
  else if marker = 0xcd then d.unsignedAbove 2 0xff
  else if marker = 0xce then d.unsignedAbove 4 0xffff
  else d.unsignedAbove 8 0xffffffff

/-- Markers `0xd0..=0xd3`. -/
def signedForm : Except Error (Value × Decoder) :=
  if marker = 0xd0 then d.signedBelow 1 (-32)
  else if marker = 0xd1 then d.signedBelow 2 (-128)
  else if marker = 0xd2 then d.signedBelow 4 (-32768)
  else d.signedBelow 8 (-2147483648)

/-- Markers `0xd9..=0xdb`. -/
def textForm : Except Error (Value × Decoder) :=
  if marker = 0xd9 then do
    let (length, d) ← d.above 1 31 "text"
    d.text length
  else if marker = 0xda then do
    let (length, d) ← d.above 2 255 "text"
    d.text length
  else do
    let (length, d) ← d.above 4 65535 "text"
    d.text length

/-- Markers `0xdc` and `0xdd`. -/
def arrayForm (item : Decoder → Except Error (Value × Decoder)) (marker : UInt8) :
    Except Error (Value × Decoder) :=
  if marker = 0xdc then do
    let (length, d) ← d.uint 2
    if length = 0 then .error (d.error .emptyArray)
    else if length ≤ 15 then .error (d.error (.nonMinimal "array"))
    else if d.signable ∧ length ≤ 0x1f then .error (d.error (.nonCanonicalSignable "array16"))
    else d.array item length
  else do
    let (length, d) ← d.above 4 65535 "array"
    d.array item length

/-- The match on the marker byte. -/
def dispatch (item : Decoder → Except Error (Value × Decoder)) (marker : UInt8) :
    Except Error (Value × Decoder) :=
  if marker ≤ 0x7f then .ok (.unsigned (UInt64.ofNat marker.toNat), d)
  else if marker = 0x80 then .ok (.variantNone, d)
  else if marker = 0x81 then d.variant item
  else if marker ≤ 0x8f then
    .error (d.error (.invalidVariantSize (marker &&& 0x0f).toNat))
  else if marker = 0x90 then .error (d.error .emptyArray)
  else if marker ≤ 0x9f then d.array item (marker &&& 0x0f).toNat
  else if marker ≤ 0xbf then d.text (marker &&& 0x1f).toNat
  else if marker = 0xc0 then .ok (.null, d)
  else if marker = 0xc1 then .error (d.error (.reservedMarker marker))
  else if marker = 0xc2 then .ok (.bool false, d)
  else if marker = 0xc3 then .ok (.bool true, d)
  else if marker ≤ 0xc6 then d.binaryForm marker
  else if marker ≤ 0xc9 then .error (d.error .unsupportedExtension)
  else if marker ≤ 0xcb then .error (d.error .unsupportedFloat)
  else if marker ≤ 0xcf then d.unsignedForm marker
  else if marker ≤ 0xd3 then d.signedForm marker
  else if marker ≤ 0xd8 then .error (d.error .unsupportedExtension)
  else if marker ≤ 0xdb then d.textForm marker
  else if marker ≤ 0xdd then d.arrayForm item marker
  else if marker ≤ 0xdf then .error (d.error .arbitraryMap)
  else .ok (.negative (Int64.ofInt (signedOfBE [marker])), d)

/-- Charges the value budget, then checks the depth. -/
def enter : Except Error Decoder :=
  let d := { d with values := d.values + 1 }
  if d.values > d.limit then .error (d.error .valueLimit)
  else if d.path.length > maxDepth then .error (d.error .depthLimit)
  else .ok d

end

/-- One value. The first argument is the number of levels left, this one included. -/
def value : Nat → Decoder → Except Error (Value × Decoder)
  | 0, d => do
    let d ← d.enter
    .error (d.error .depthLimit)
  | levels + 1, d => do
    let d ← d.enter
    let (marker, d) ← d.byte
    d.dispatch (value levels) marker

end Decoder

def decodePrefix (input : List UInt8) : Except Error (Value × Nat) := do
  let (v, d) ← Decoder.value (maxDepth + 1) (.new input false)
  .ok (v, d.offset)

def decode (input : List UInt8) : Except Error Value := do
  let (v, consumed) ← decodePrefix input
  if consumed ≠ input.length then .error ⟨.trailingBytes, consumed, []⟩ else .ok v

def validateSignable (input : List UInt8) : Except Error Unit := do
  let (_, d) ← Decoder.value (maxDepth + 1) (.new input true)
  if d.offset ≠ input.length then .error ⟨.trailingBytes, d.offset, []⟩ else .ok ()

end Foks.Snowpack
