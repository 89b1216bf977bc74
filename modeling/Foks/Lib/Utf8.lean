/-
  UTF-8: the characters a byte string stands for, as `str::from_utf8` accepts it. Overlong
  forms, surrogates and code points past the last plane are refused. And a byte string as text, in
  hexadecimal digits.
-/
import Mathlib.Tactic

namespace Foks.Lib

/-- The payload of a continuation byte within the given bounds. -/
def continuation (low high byte : UInt8) : Option Nat :=
  if low ≤ byte ∧ byte ≤ high then some (byte.toNat % 64) else none

/-- The bounds of the byte after a leading byte of a three-byte form. -/
def threeByteBounds (lead : UInt8) : UInt8 × UInt8 :=
  if lead = 0xe0 then (0xa0, 0xbf) else if lead = 0xed then (0x80, 0x9f) else (0x80, 0xbf)

/-- The bounds of the byte after a leading byte of a four-byte form. -/
def fourByteBounds (lead : UInt8) : UInt8 × UInt8 :=
  if lead = 0xf0 then (0x90, 0xbf) else if lead = 0xf4 then (0x80, 0x8f) else (0x80, 0xbf)

/-- The characters of a byte string. -/
def utf8Chars : List UInt8 → Option (List Char)
  | [] => some []
  | a :: rest =>
    if a < 0x80 then (utf8Chars rest).map (Char.ofNat a.toNat :: ·)
    else
      match rest with
      | [] => none
      | b :: rest =>
        if 0xc2 ≤ a ∧ a ≤ 0xdf then do
          let x ← continuation 0x80 0xbf b
          let chars ← utf8Chars rest
          some (Char.ofNat (a.toNat % 32 * 64 + x) :: chars)
        else
          match rest with
          | [] => none
          | c :: rest =>
            if 0xe0 ≤ a ∧ a ≤ 0xef then do
              let x ← continuation (threeByteBounds a).1 (threeByteBounds a).2 b
              let y ← continuation 0x80 0xbf c
              let chars ← utf8Chars rest
              some (Char.ofNat (a.toNat % 16 * 4096 + x * 64 + y) :: chars)
            else
              match rest with
              | [] => none
              | d :: rest =>
                if 0xf0 ≤ a ∧ a ≤ 0xf4 then do
                  let x ← continuation (fourByteBounds a).1 (fourByteBounds a).2 b
                  let y ← continuation 0x80 0xbf c
                  let z ← continuation 0x80 0xbf d
                  let chars ← utf8Chars rest
                  some (Char.ofNat (a.toNat % 8 * 262144 + x * 4096 + y * 64 + z) :: chars)
                else none

def hexDigit (n : UInt8) : UInt8 := if n < 10 then n + 48 else n + 87

/-- Two lowercase digits for each byte. -/
def hexText (bytes : List UInt8) : List UInt8 :=
  bytes.flatMap fun byte => [hexDigit (byte / 16), hexDigit (byte % 16)]

end Foks.Lib
