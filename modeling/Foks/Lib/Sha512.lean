/-
  SHA-512/256.

  The compression function works on 64-bit words held as naturals below `2 ^ 64`; the message
  schedule is a window of the last sixteen words. Everything computes by evaluation, so closed
  statements about hashes of given strings are decided by the kernel.
-/
import Foks.Lib.BigEndian

namespace Foks.Lib.Sha512

def wordMod : Nat := 18446744073709551616

def rotr (x n : Nat) : Nat := (x >>> n ||| x <<< (64 - n)) % wordMod

def bigSigma0 (x : Nat) : Nat := rotr x 28 ^^^ rotr x 34 ^^^ rotr x 39

def bigSigma1 (x : Nat) : Nat := rotr x 14 ^^^ rotr x 18 ^^^ rotr x 41

def smallSigma0 (x : Nat) : Nat := rotr x 1 ^^^ rotr x 8 ^^^ x >>> 7

def smallSigma1 (x : Nat) : Nat := rotr x 19 ^^^ rotr x 61 ^^^ x >>> 6

def choose (e f g : Nat) : Nat := e &&& f ^^^ (wordMod - 1 - e) &&& g

def majority (a b c : Nat) : Nat := a &&& b ^^^ a &&& c ^^^ b &&& c

def roundConstants : List Nat :=
  [0x428a2f98d728ae22, 0x7137449123ef65cd, 0xb5c0fbcfec4d3b2f, 0xe9b5dba58189dbbc,
    0x3956c25bf348b538, 0x59f111f1b605d019, 0x923f82a4af194f9b, 0xab1c5ed5da6d8118,
    0xd807aa98a3030242, 0x12835b0145706fbe, 0x243185be4ee4b28c, 0x550c7dc3d5ffb4e2,
    0x72be5d74f27b896f, 0x80deb1fe3b1696b1, 0x9bdc06a725c71235, 0xc19bf174cf692694,
    0xe49b69c19ef14ad2, 0xefbe4786384f25e3, 0x0fc19dc68b8cd5b5, 0x240ca1cc77ac9c65,
    0x2de92c6f592b0275, 0x4a7484aa6ea6e483, 0x5cb0a9dcbd41fbd4, 0x76f988da831153b5,
    0x983e5152ee66dfab, 0xa831c66d2db43210, 0xb00327c898fb213f, 0xbf597fc7beef0ee4,
    0xc6e00bf33da88fc2, 0xd5a79147930aa725, 0x06ca6351e003826f, 0x142929670a0e6e70,
    0x27b70a8546d22ffc, 0x2e1b21385c26c926, 0x4d2c6dfc5ac42aed, 0x53380d139d95b3df,
    0x650a73548baf63de, 0x766a0abb3c77b2a8, 0x81c2c92e47edaee6, 0x92722c851482353b,
    0xa2bfe8a14cf10364, 0xa81a664bbc423001, 0xc24b8b70d0f89791, 0xc76c51a30654be30,
    0xd192e819d6ef5218, 0xd69906245565a910, 0xf40e35855771202a, 0x106aa07032bbd1b8,
    0x19a4c116b8d2d0c8, 0x1e376c085141ab53, 0x2748774cdf8eeb99, 0x34b0bcb5e19b48a8,
    0x391c0cb3c5c95a63, 0x4ed8aa4ae3418acb, 0x5b9cca4f7763e373, 0x682e6ff3d6b2b8a3,
    0x748f82ee5defb2fc, 0x78a5636f43172f60, 0x84c87814a1f0ab72, 0x8cc702081a6439ec,
    0x90befffa23631e28, 0xa4506cebde82bde9, 0xbef9a3f7b2c67915, 0xc67178f2e372532b,
    0xca273eceea26619c, 0xd186b8c721c0c207, 0xeada7dd6cde0eb1e, 0xf57d4f7fee6ed178,
    0x06f067aa72176fba, 0x0a637dc5a2c898a6, 0x113f9804bef90dae, 0x1b710b35131c471b,
    0x28db77f523047d84, 0x32caab7b40c72493, 0x3c9ebe0a15c9bebc, 0x431d67c49c100d4c,
    0x4cc5d4becb3e42b6, 0x597f299cfc657e2a, 0x5fcb6fab3ad6faec, 0x6c44198c4a475817]

/-- The initial state of the 256-bit variant. -/
def initialState : List Nat :=
  [0x22312194fc2bf72c, 0x9f555fa3c84c64c2, 0x2393b86b6f53b151, 0x963877195940eabd,
    0x96283ee2a88effe3, 0xbe5e1e2553863992, 0x2b0199fc2c85b8aa, 0x0eb72ddc81c52ca2]

/-- The rounds with the constants `ks`: the eight words of the state, and the window of the
    schedule, which moves on by one word each round. -/
def rounds : List Nat → (a b c d e f g h w0 w1 w2 w3 w4 w5 w6 w7 w8 w9 w10 w11 w12 w13 w14
    w15 : Nat) → List Nat
  | [], a, b, c, d, e, f, g, h, _, _, _, _, _, _, _, _, _, _, _, _, _, _, _, _ =>
    [a, b, c, d, e, f, g, h]
  | k :: ks, a, b, c, d, e, f, g, h, w0, w1, w2, w3, w4, w5, w6, w7, w8, w9, w10, w11, w12, w13,
      w14, w15 =>
    let t1 := h + bigSigma1 e + choose e f g + k + w0
    let t2 := bigSigma0 a + majority a b c
    rounds ks ((t1 + t2) % wordMod) a b c ((d + t1) % wordMod) e f g w1 w2 w3 w4 w5 w6 w7 w8 w9
      w10 w11 w12 w13 w14 w15 ((w0 + smallSigma0 w1 + w9 + smallSigma1 w14) % wordMod)

/-- All rounds on a state of eight words and a block of sixteen. -/
def allRounds : List Nat → List Nat → List Nat
  | [a, b, c, d, e, f, g, h],
      [w0, w1, w2, w3, w4, w5, w6, w7, w8, w9, w10, w11, w12, w13, w14, w15] =>
    rounds roundConstants a b c d e f g h w0 w1 w2 w3 w4 w5 w6 w7 w8 w9 w10 w11 w12 w13 w14 w15
  | state, _ => state

/-- The words of a block. -/
def words : List UInt8 → List Nat
  | a :: b :: c :: d :: e :: f :: g :: h :: rest => ofBE [a, b, c, d, e, f, g, h] :: words rest
  | _ => []

def compress (state : List Nat) (block : List UInt8) : List Nat :=
  List.zipWith (fun x y => (x + y) % wordMod) state (allRounds state (words block))

def compressAll : Nat → List Nat → List UInt8 → List Nat
  | 0, state, _ => state
  | blocks + 1, state, message =>
    compressAll blocks (compress state (message.take 128)) (message.drop 128)

/-- A one bit, zeros, and the length in bits, up to a whole number of blocks. -/
def pad (message : List UInt8) : List UInt8 :=
  message ++ 0x80 :: (List.replicate ((239 - message.length % 128) % 128) 0 ++
    toBE 16 (message.length * 8))

theorem initialState_length : initialState.length = 8 := rfl

theorem rounds_length (ks : List Nat) (a b c d e f g h w0 w1 w2 w3 w4 w5 w6 w7 w8 w9 w10 w11 w12 w13
    w14 w15 : Nat) :
    (rounds ks a b c d e f g h w0 w1 w2 w3 w4 w5 w6 w7 w8 w9 w10 w11 w12 w13 w14 w15).length =
    8 := by
  induction ks generalizing a b c d e f g h w0 w1 w2 w3 w4 w5 w6 w7 w8 w9 w10 w11 w12 w13 w14
    w15 with
  | nil => rfl
  | cons k ks ih =>
    rw [rounds]
    exact ih ..

theorem compress_length (state : List Nat) (block : List UInt8) (h : state.length = 8) :
    (compress state block).length = 8 := by
  have hrounds : (allRounds state (words block)).length = 8 := by
    unfold allRounds
    split
    · exact rounds_length ..
    · exact h
  rw [compress, List.length_zipWith, hrounds, h]
  rfl

theorem compressAll_length (blocks : Nat) (state : List Nat) (message : List UInt8)
    (h : state.length = 8) : (compressAll blocks state message).length = 8 := by
  induction blocks generalizing state message with
  | zero => exact h
  | succ blocks ih => exact ih _ _ (compress_length state _ h)

theorem flatten_words_length (state : List Nat) :
    (state.flatMap (toBE 8)).length = 8 * state.length := by
  induction state with
  | nil => rfl
  | cons w state ih => simp [ih]; omega

/-- The hash of a byte string. -/
def hash256 (message : List UInt8) : FixedBytes 32 :=
  ⟨((compressAll ((pad message).length / 128) initialState (pad message)).flatMap (toBE 8)).take 32,
    by rw [List.length_take, flatten_words_length, compressAll_length _ _ _ initialState_length]
       rfl⟩

set_option maxRecDepth 4000 in
example : (hash256 [0x61, 0x62, 0x63]).bytes =
    [0x53, 0x04, 0x8e, 0x26, 0x81, 0x94, 0x1e, 0xf9, 0x9b, 0x2e, 0x29, 0xb7, 0x6b, 0x4c, 0x7d, 0xab,
      0xe4, 0xc2, 0xd0, 0xc6, 0x34, 0xfc, 0x6d, 0x46, 0xe0, 0xe2, 0xf1, 0x31, 0x07, 0xe7, 0xaf,
      0x23] := by
  decide +kernel

end Foks.Lib.Sha512
