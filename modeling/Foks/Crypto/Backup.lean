/-
  Recovery phrases (`foks-crypto`, `backup.rs`).

  A backup seed has 203 bits. Its phrase has nine words of eleven bits each and, between them, eight
  numbers of thirteen bits, from the lowest bits on. Text is split at white space and numbers are
  read as 64-bit integers, so many texts stand for one phrase; `canonicalTokens` is what they have
  in common. Up to it, seeds and phrases correspond one to one.

  The dictionary is the list of words of BIP-39, which comes with a library. Only what the functions
  need of it is known here: it is sorted, has 2048 words, and no word is empty or has a space in it.
-/
import Foks.Lib.Outcome
import Foks.Lib.ShiftRegister

namespace Foks.Crypto

open Foks.Lib

def backupSeedBytes : Nat := 26

def recoveryPhraseTokens : Nat := 17

def backupWords : Nat := 9

def backupNumbers : Nat := 8

def wordBits : Nat := 11

def numberBits : Nat := 13

def numberLimit : Nat := 2 ^ numberBits

def backupTopMask : UInt8 := 0x07

inductive RecoveryPhraseError where
  | tokenCount (found : Nat)
  | word (index : Nat)
  | number (index : Nat)
  | numberRange (index : Nat)
  | highBits
  | overflow
  deriving DecidableEq

/-! ## Text -/

/-- `char::is_whitespace`. -/
def isWhitespace (c : Char) : Bool :=
  let code := c.toNat
  (9 ≤ code && code ≤ 13) || code = 32 || code = 0x85 || code = 0xa0 || code = 0x1680 ||
    (0x2000 ≤ code && code ≤ 0x200a) || code = 0x2028 || code = 0x2029 || code = 0x202f ||
    code = 0x205f || code = 0x3000

abbrev Token := List Char

/-- `str::split_whitespace`, with the token that has been read so far. -/
def splitFrom (token : Token) : List Char → List Token
  | [] => if token.isEmpty then [] else [token]
  | c :: text =>
    if isWhitespace c then
      if token.isEmpty then splitFrom [] text else token :: splitFrom [] text
    else splitFrom (token ++ [c]) text

def splitWhitespace (text : List Char) : List Token := splitFrom [] text

/-- The digits of a number after its sign. -/
def parseDigits (negative : Bool) (digits : List Char) : Option Int :=
  if digits.isEmpty || !digits.all Char.isDigit then none
  else
    let magnitude : Int := Nat.ofDigitChars 10 digits 0
    let value := if negative then -magnitude else magnitude
    if -2 ^ 63 ≤ value ∧ value < 2 ^ 63 then some value else none

/-- `str::parse::<i64>`. -/
def parseI64 : Token → Option Int
  | '-' :: digits => parseDigits true digits
  | '+' :: digits => parseDigits false digits
  | digits => parseDigits false digits

/-- `u16::to_string`. -/
def decimal (number : Nat) : Token := Nat.toDigits 10 number

/-- `Language::English.word_list`. -/
structure Dictionary where
  words : List Token
  length_eq : words.length = 2048
  sorted : words.Pairwise (· < ·)
  plain : ∀ word ∈ words, word ≠ [] ∧ ∀ c ∈ word, isWhitespace c = false

section

variable (dictionary : Dictionary)

/-- `binary_search` in a sorted list. -/
def Dictionary.index? (token : Token) : Option Nat :=
  dictionary.words.findIdx? fun word => word = token

def Dictionary.word (index : UInt16) : Token :=
  dictionary.words.getD index.toNat []

/-! ## Bits -/

section

variable (seed : FixedBytes backupSeedBytes)

/-- The number that a seed stands for. -/
def value : Nat := ofBE seed.bytes

def zeroSeed : FixedBytes backupSeedBytes := .replicate 26 0

theorem size_shiftLeft : (shiftLeft seed.bytes).1.length = backupSeedBytes :=
  (length_shiftLeft seed.bytes).trans seed.size_eq

theorem size_shiftRight : (shiftRight 0 seed.bytes).length = backupSeedBytes :=
  (length_shiftRight 0 seed.bytes).trans seed.size_eq

theorem size_setTail (value : UInt16) : (setTail seed.bytes value).length = backupSeedBytes :=
  (length_setTail seed.bytes value).trans seed.size_eq

/-- The loop of `push_bits`. -/
def pushZeros : Nat → FixedBytes backupSeedBytes →
    Except RecoveryPhraseError (FixedBytes backupSeedBytes)
  | 0, seed => .ok seed
  | count + 1, seed =>
    if (shiftLeft seed.bytes).2 ≠ 0 then .error .overflow
    else pushZeros count ⟨(shiftLeft seed.bytes).1, size_shiftLeft seed⟩

def pushBits (value : UInt16) (count : Nat) :
    Except RecoveryPhraseError (FixedBytes backupSeedBytes) :=
  (pushZeros count seed).map fun seed =>
    ⟨setTail seed.bytes (tail seed.bytes ||| value), size_setTail seed _⟩

/-- The loop of `take_low_bits`. -/
def dropBits : Nat → FixedBytes backupSeedBytes → FixedBytes backupSeedBytes
  | 0, seed => seed
  | count + 1, seed => dropBits count ⟨shiftRight 0 seed.bytes, size_shiftRight seed⟩

def takeLowBits (count : Nat) : UInt16 × FixedBytes backupSeedBytes :=
  (tail seed.bytes &&& ((1 <<< UInt16.ofNat count) - 1), dropBits count seed)

/-! ## Keys and phrases -/

/-- A seed whose five high bits are not used. -/
structure BackupKey where
  seed : FixedBytes backupSeedBytes
  highBits : seed.bytes.getD 0 0 &&& ~~~backupTopMask = 0
  deriving DecidableEq

def BackupKey.fromSeed : Except RecoveryPhraseError BackupKey :=
  if h : seed.bytes.getD 0 0 &&& ~~~backupTopMask = 0 then .ok ⟨seed, h⟩ else .error .highBits

/-- `step_by(2)`. -/
def everyOther {α : Type} : List α → List α
  | [] => []
  | [a] => [a]
  | a :: _ :: rest => a :: everyOther rest

def readWord (dictionary : Dictionary) (index : Nat) (token : Token) :
    Except RecoveryPhraseError UInt16 :=
  (okOr (.word index) (dictionary.index? token)).map UInt16.ofNat

def readNumber (index : Nat) (token : Token) : Except RecoveryPhraseError UInt16 := do
  let value ← okOr (.number index) (parseI64 token)
  if 0 ≤ value ∧ value < numberLimit then .ok (UInt16.ofNat value.toNat)
  else .error (.numberRange index)

/-- A loop over tokens with their positions. -/
def readAll (read : Nat → Token → Except RecoveryPhraseError UInt16) :
    Nat → List Token → Except RecoveryPhraseError (List UInt16)
  | _, [] => .ok []
  | index, token :: tokens => do
    let value ← read index token
    let values ← readAll read (index + 1) tokens
    .ok (value :: values)

def pushPair (pair : UInt16 × UInt16) :
    Except RecoveryPhraseError (FixedBytes backupSeedBytes) := do
  let seed ← pushBits seed pair.2 numberBits
  pushBits seed pair.1 wordBits

end

/-- The last word, and then the pairs of a word and the number after it, from the last on. -/
def pushPhrase (words numbers : List UInt16) :
    Except RecoveryPhraseError (FixedBytes backupSeedBytes) := do
  let seed ← pushBits zeroSeed (words.getD (backupWords - 1) 0) wordBits
  (words.zip numbers).reverse.foldlM pushPair seed

def fromPhrase (phrase : List Char) : Except RecoveryPhraseError BackupKey :=
  let tokens := splitWhitespace phrase
  if tokens.length ≠ recoveryPhraseTokens then .error (.tokenCount tokens.length)
  else do
    let words ← readAll (readWord dictionary) 0 (everyOther tokens)
    let numbers ← readAll readNumber 0 (everyOther (tokens.drop 1))
    let seed ← pushPhrase words numbers
    BackupKey.fromSeed seed

/-- The words and numbers of a seed, with so many numbers to go. -/
def takeTokens (dictionary : Dictionary) : Nat → FixedBytes backupSeedBytes → List Token
  | 0, seed => [dictionary.word (takeLowBits seed wordBits).1]
  | numbers + 1, seed =>
    let (word, afterWord) := takeLowBits seed wordBits
    let (number, remaining) := takeLowBits afterWord numberBits
    dictionary.word word :: decimal number.toNat :: takeTokens dictionary numbers remaining

/-- `BackupKey::phrase`. -/
def phrase (key : BackupKey) : List Token :=
  takeTokens dictionary backupNumbers key.seed

end

/-- `RecoveryPhrase::expose_joined`. -/
def joined (tokens : List Token) : List Char := [' '].intercalate tokens

/-- The same words, and the same numbers in plain decimal. -/
def canonicalTokens : List Token → List Token
  | word :: number :: rest =>
    word :: ((parseI64 number).map fun value => decimal value.toNat).getD number ::
      canonicalTokens rest
  | tokens => tokens

end Foks.Crypto
