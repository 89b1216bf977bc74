/-
  Seeds and recovery phrases correspond one to one.

  On the numbers that seeds stand for, `pushBits` multiplies and adds and `takeLowBits` divides
  (`pushBits_value`, `takeLowBits_value`). So a phrase is the seed written with digits of eleven and
  thirteen bits in turn (`pack`), which every number below `2 ^ 203` is in exactly one way.
-/
import Foks.Crypto.Backup

namespace Foks.Crypto

open Foks.Lib

/-! ## Bits -/

section

variable {seed : FixedBytes backupSeedBytes}

theorem value_inj {a b : FixedBytes backupSeedBytes} (h : value a = value b) : a = b := by
  have hbytes : a.bytes = b.bytes := by
    rw [← toBE_ofBE a.bytes, ← toBE_ofBE b.bytes, a.size_eq, b.size_eq]
    exact congrArg (toBE backupSeedBytes) h
  exact FixedBytes.ext hbytes

theorem pushZeros_value (count : Nat) (h : value seed * 2 ^ count < 2 ^ 208) :
    ∃ seed', pushZeros count seed = .ok seed' ∧ value seed' = value seed * 2 ^ count := by
  induction count generalizing seed with
  | zero => exact ⟨seed, rfl, by rw [pow_zero, mul_one]⟩
  | succ count ih =>
    obtain ⟨hdouble, hcarry⟩ := ofBE_shiftLeft seed.bytes
    rw [seed.size_eq] at hdouble
    let shifted : FixedBytes backupSeedBytes := ⟨(shiftLeft seed.bytes).1, size_shiftLeft seed⟩
    have hvalue : (shiftLeft seed.bytes).2.toNat * 2 ^ 208 + value shifted = 2 * value seed :=
      hdouble
    have hroom : 2 * value seed < 2 ^ 208 := by
      have hle : 2 * value seed ≤ value seed * 2 ^ (count + 1) := by
        rw [pow_succ, Nat.mul_comm 2]
        exact Nat.mul_le_mul_left _ (Nat.le_mul_of_pos_left 2 (Nat.two_pow_pos count))
      omega
    have hzero : (shiftLeft seed.bytes).2 = 0 := by
      refine UInt8.toNat_inj.mp ?_
      show (shiftLeft seed.bytes).2.toNat = 0
      omega
    have hshifted : value shifted = 2 * value seed := by
      rw [hzero] at hvalue
      simpa using hvalue
    have hsame : value shifted * 2 ^ count = value seed * 2 ^ (count + 1) := by
      rw [hshifted, pow_succ]
      ring
    obtain ⟨seed', hpush, hresult⟩ := @ih shifted (by rw [hsame]; exact h)
    refine ⟨seed', ?_, by rw [hresult, hsame]⟩
    rw [pushZeros, if_neg (not_not.mpr hzero)]
    exact hpush

theorem pushBits_value {bits : UInt16} {count : Nat} (hcount : count ≤ 16)
    (hbits : bits.toNat < 2 ^ count) (h : value seed * 2 ^ count < 2 ^ 208) :
    ∃ seed', pushBits seed bits count = .ok seed' ∧
      value seed' = value seed * 2 ^ count + bits.toNat := by
  obtain ⟨shifted, hshifted, hvalue⟩ := pushZeros_value count h
  refine ⟨_, by rw [pushBits, hshifted]; rfl, ?_⟩
  have hsize : 2 ≤ shifted.bytes.length := by
    rw [shifted.size_eq]
    decide
  show ofBE (setTail shifted.bytes (tail shifted.bytes ||| bits)) = _
  rw [ofBE_setTail hsize, UInt16.toNat_or, toNat_tail hsize]
  have hnumber : ofBE shifted.bytes = value seed * 2 ^ count := hvalue
  rw [hnumber]
  -- the low bits of the shifted number are zero
  have hlow : value seed * 2 ^ count % 65536 = 2 ^ count * (value seed % 2 ^ (16 - count)) := by
    have hsplit : 65536 = 2 ^ count * 2 ^ (16 - count) := by
      rw [← pow_add, Nat.add_sub_cancel' hcount]
      norm_num
    rw [hsplit, Nat.mul_comm (value seed), Nat.mul_mod_mul_left]
  rw [hlow, or_eq_add hbits, ← hlow]
  omega

theorem dropBits_value (count : Nat) (seed : FixedBytes backupSeedBytes) :
    value (dropBits count seed) = value seed / 2 ^ count := by
  induction count generalizing seed with
  | zero => rw [dropBits, pow_zero, Nat.div_one]
  | succ count ih =>
    have hhalf : ofBE (shiftRight 0 seed.bytes) = value seed / 2 := by
      have hright : ofBE (shiftRight 0 seed.bytes) =
          ((0 : UInt8).toNat * 256 ^ seed.bytes.length + value seed) / 2 :=
        ofBE_shiftRight (by decide) seed.bytes
      simpa using hright
    rw [dropBits, ih]
    show ofBE (shiftRight 0 seed.bytes) / 2 ^ count = _
    rw [hhalf, Nat.div_div_eq_div_mul, pow_succ, Nat.mul_comm]

theorem takeLowBits_value {count : Nat} (hcount : count ≤ 16)
    (hmask : ((1 <<< UInt16.ofNat count) - 1 : UInt16).toNat = 2 ^ count - 1)
    (seed : FixedBytes backupSeedBytes) :
    (takeLowBits seed count).1.toNat = value seed % 2 ^ count ∧
      value (takeLowBits seed count).2 = value seed / 2 ^ count := by
  refine ⟨?_, dropBits_value count seed⟩
  have hsize : 2 ≤ seed.bytes.length := by
    rw [seed.size_eq]
    decide
  show (tail seed.bytes &&& ((1 <<< UInt16.ofNat count) - 1)).toNat = _
  rw [UInt16.toNat_and, toNat_tail hsize, hmask, Nat.and_two_pow_sub_one_eq_mod]
  exact Nat.mod_mod_of_dvd _ (pow_dvd_pow 2 hcount)

section

variable (seed : FixedBytes backupSeedBytes)

theorem takeWord_value : (takeLowBits seed wordBits).1.toNat = value seed % 2 ^ 11 ∧
      value (takeLowBits seed wordBits).2 = value seed / 2 ^ 11 :=
  takeLowBits_value (by decide) (by decide) seed

theorem takeNumber_value : (takeLowBits seed numberBits).1.toNat = value seed % 2 ^ 13 ∧
      value (takeLowBits seed numberBits).2 = value seed / 2 ^ 13 :=
  takeLowBits_value (by decide) (by decide) seed

/-- The high bits are not used exactly when the number has no more than 203 bits. -/
theorem highBits_iff : seed.bytes.getD 0 0 &&& ~~~backupTopMask = 0 ↔ value seed < 2 ^ 203 := by
  obtain ⟨bytes, hsize⟩ := seed
  cases bytes with
  | nil => cases hsize
  | cons byte rest =>
    have hlength : rest.length = 25 := by
      rw [backupSeedBytes, List.length_cons] at hsize
      omega
    have hrest := ofBE_lt rest
    have hbyte := byte.toNat_lt
    rw [hlength] at hrest
    have hmask : ∀ n < 256, n &&& 248 = 0 ↔ n < 8 := by decide +kernel
    show byte &&& ~~~backupTopMask = 0 ↔ ofBE (byte :: rest) < 2 ^ 203
    rw [ofBE_cons, hlength, ← UInt8.toNat_inj, UInt8.toNat_and]
    show byte.toNat &&& 248 = 0 ↔ _
    rw [hmask _ hbyte]
    omega

end

end

/-! ## Digits of eleven and thirteen bits in turn -/

/-- Words and numbers, without the last word. -/
abbrev Pairs := List (UInt16 × UInt16)

def pack : Pairs → UInt16 → Nat
  | [], last => last.toNat
  | (word, number) :: pairs, last =>
    word.toNat + 2 ^ 11 * (number.toNat + 2 ^ 13 * pack pairs last)

/-- Words have eleven bits and numbers have thirteen. -/
structure PhraseFits (pairs : Pairs) (last : UInt16) : Prop where
  pairs : ∀ pair ∈ pairs, pair.1.toNat < 2 ^ 11 ∧ pair.2.toNat < 2 ^ 13
  last : last.toNat < 2 ^ 11

variable {pairs : Pairs} {last : UInt16}

theorem PhraseFits.tail {pair : UInt16 × UInt16} (h : PhraseFits (pair :: pairs) last) :
    PhraseFits pairs last :=
  ⟨fun other hother => h.pairs other (List.mem_cons_of_mem _ hother), h.last⟩

theorem pack_lt (h : PhraseFits pairs last) : pack pairs last < 2 ^ (24 * pairs.length + 11) := by
  induction pairs with
  | nil => exact h.last
  | cons pair pairs ih =>
    obtain ⟨hword, hnumber⟩ := h.pairs pair List.mem_cons_self
    have hrest := ih h.tail
    have hpow : 2 ^ (24 * (pair :: pairs).length + 11) = 2 ^ 24 * 2 ^ (24 * pairs.length + 11) := by
      rw [← pow_add, List.length_cons]
      congr 1
      omega
    rw [hpow, pack]
    omega

/-- Every number is written with such digits. -/
theorem exists_pack (count : Nat) {number : Nat} (h : number < 2 ^ (24 * count + 11)) :
    ∃ pairs last, pairs.length = count ∧ PhraseFits pairs last ∧ pack pairs last = number := by
  induction count generalizing number with
  | zero =>
    have hsize : number < 2 ^ 16 := Nat.lt_trans h (by decide)
    have hlast : (UInt16.ofNat number).toNat = number := UInt16.toNat_ofNat_of_lt' hsize
    exact ⟨[], UInt16.ofNat number, rfl, ⟨by simp, by rw [hlast]; exact h⟩, hlast⟩
  | succ count ih =>
    have hpow : 2 ^ (24 * (count + 1) + 11) = 2 ^ 24 * 2 ^ (24 * count + 11) := by
      rw [← pow_add]
      congr 1
      omega
    rw [hpow] at h
    obtain ⟨pairs, last, hlength, hfits, hpack⟩ := @ih (number / 2 ^ 24) (Nat.div_lt_of_lt_mul h)
    have hword : (UInt16.ofNat (number % 2 ^ 11)).toNat = number % 2 ^ 11 :=
      UInt16.toNat_ofNat_of_lt' (Nat.lt_trans (Nat.mod_lt _ (by decide)) (by decide))
    have hnumber : (UInt16.ofNat (number / 2 ^ 11 % 2 ^ 13)).toNat = number / 2 ^ 11 % 2 ^ 13 :=
      UInt16.toNat_ofNat_of_lt' (Nat.lt_trans (Nat.mod_lt _ (by decide)) (by decide))
    refine ⟨(UInt16.ofNat (number % 2 ^ 11), UInt16.ofNat (number / 2 ^ 11 % 2 ^ 13)) :: pairs,
      last, by rw [List.length_cons, hlength], ⟨?_, hfits.last⟩, ?_⟩
    · refine List.forall_mem_cons.mpr ⟨?_, hfits.pairs⟩
      rw [hword, hnumber]
      exact ⟨Nat.mod_lt _ (by decide), Nat.mod_lt _ (by decide)⟩
    · rw [pack, hword, hnumber, hpack]
      omega

variable {index : Nat} {token : Token}

section

variable {seed : FixedBytes backupSeedBytes}

theorem pushPairs_value (h : PhraseFits pairs last) (hlength : pairs.length ≤ 8)
    (hseed : value seed = last.toNat) :
    ∃ seed', pairs.reverse.foldlM pushPair seed = .ok seed' ∧ value seed' = pack pairs last := by
  induction pairs with
  | nil => exact ⟨seed, rfl, hseed⟩
  | cons pair pairs ih =>
    rw [List.length_cons] at hlength
    obtain ⟨mid, hmid, hvalue⟩ := ih h.tail (by omega)
    obtain ⟨hword, hnumber⟩ := h.pairs pair List.mem_cons_self
    have hlt := pack_lt h.tail
    have hpow :
        2 ^ (24 * pairs.length + 11) ≤ 2 ^ 179 := Nat.pow_le_pow_right (by decide) (by omega)
    have hmidLt : value mid < 2 ^ 179 := by
      rw [hvalue]
      exact Nat.lt_of_lt_of_le hlt hpow
    have hroom : value mid * 2 ^ 13 < 2 ^ 208 := by omega
    obtain ⟨one, hone, hvalueOne⟩ : ∃ seed', pushBits mid pair.2 numberBits = .ok seed' ∧
        value seed' = value mid * 2 ^ 13 + pair.2.toNat :=
      pushBits_value (by decide) hnumber hroom
    have hroomOne : value one * 2 ^ 11 < 2 ^ 208 := by
      clear hlt hpow hroom
      omega
    obtain ⟨two, htwo, hvalueTwo⟩ : ∃ seed', pushBits one pair.1 wordBits = .ok seed' ∧
        value seed' = value one * 2 ^ 11 + pair.1.toNat :=
      pushBits_value (by decide) hword hroomOne
    refine ⟨two, ?_, ?_⟩
    · rw [List.reverse_cons, foldlM_append_eq_ok]
      refine ⟨mid, hmid, ?_⟩
      show pushPair mid pair >>= pure = _
      have hpair : pushPair mid pair = .ok two := by
        rw [pushPair, hone, ok_bind, htwo]
      rw [hpair]
      rfl
    · rw [hvalueTwo, hvalueOne, hvalue, pack]
      omega

/-! ## Tokens -/

section

variable {dictionary : Dictionary}

/-- The tokens of words and numbers. -/
def tokensOf (dictionary : Dictionary) : Pairs → UInt16 → List Token
  | [], last => [dictionary.word last]
  | (word, number) :: pairs, last =>
    dictionary.word word :: decimal number.toNat :: tokensOf dictionary pairs last

theorem takeTokens_pack (h : PhraseFits pairs last) (hseed : value seed = pack pairs last) :
    takeTokens dictionary pairs.length seed = tokensOf dictionary pairs last := by
  induction pairs generalizing seed with
  | nil =>
    have hlast : (takeLowBits seed wordBits).1 = last := by
      refine UInt16.toNat_inj.mp ?_
      rw [(takeWord_value seed).1, hseed]
      exact Nat.mod_eq_of_lt h.last
    show [dictionary.word (takeLowBits seed wordBits).1] = [dictionary.word last]
    rw [hlast]
  | cons pair pairs ih =>
    obtain ⟨hword, hnumber⟩ := h.pairs pair List.mem_cons_self
    obtain ⟨hfirst, hafter⟩ := takeWord_value seed
    obtain ⟨hsecond, hremaining⟩ := takeNumber_value (takeLowBits seed wordBits).2
    rw [pack] at hseed
    have hwordEq : (takeLowBits seed wordBits).1 = pair.1 := by
      refine UInt16.toNat_inj.mp ?_
      omega
    have hnumberEq : (takeLowBits (takeLowBits seed wordBits).2 numberBits).1 = pair.2 := by
      refine UInt16.toNat_inj.mp ?_
      omega
    have hrest : value (takeLowBits (takeLowBits seed wordBits).2 numberBits).2 =
        pack pairs last := by omega
    show dictionary.word (takeLowBits seed wordBits).1 ::
        decimal (takeLowBits (takeLowBits seed wordBits).2 numberBits).1.toNat ::
          takeTokens dictionary pairs.length
            (takeLowBits (takeLowBits seed wordBits).2 numberBits).2 = _
    rw [hwordEq, hnumberEq, ih h.tail hrest, tokensOf]

theorem index?_eq_some (h : dictionary.index? token = some index) :
    index < 2048 ∧ dictionary.word (UInt16.ofNat index) = token := by
  obtain ⟨hlt, hmatch, _⟩ := List.findIdx?_eq_some_iff_getElem.mp h
  have hindex := hlt
  rw [dictionary.length_eq] at hindex
  refine ⟨hindex, ?_⟩
  have hsize : (UInt16.ofNat index).toNat = index := UInt16.toNat_ofNat_of_lt'
    (Nat.lt_trans hindex (by decide))
  rw [Dictionary.word, hsize, List.getD_eq_getElem _ _ hlt]
  exact of_decide_eq_true hmatch

theorem index?_word {index : UInt16} (h : index.toNat < 2 ^ 11) :
    dictionary.index? (dictionary.word index) = some index.toNat := by
  have hlt : index.toNat < dictionary.words.length := by
    rw [dictionary.length_eq]
    exact h
  have hword : dictionary.word index = dictionary.words[index.toNat] :=
    List.getD_eq_getElem _ _ hlt
  refine List.findIdx?_eq_some_iff_getElem.mpr
    ⟨hlt, decide_eq_true hword.symm, fun other hother => ?_⟩
  have hsorted := List.pairwise_iff_getElem.mp dictionary.sorted other index.toNat
    (Nat.lt_trans hother hlt) hlt hother
  rw [hword, decide_eq_true_eq]
  intro heq
  rw [heq] at hsorted
  exact List.lt_irrefl _ hsorted

theorem isDigit_of_mem_decimal {number : Nat} {c : Char} (h : c ∈ decimal number) :
    c.isDigit = true :=
  Nat.isDigit_of_mem_toDigits (by decide) (by decide) h

theorem parseI64_decimal (number : Nat) (h : number < 2 ^ 63) :
    parseI64 (decimal number) = some (number : Int) := by
  have hdigits : parseDigits false (decimal number) = some (number : Int) := by
    have hall : (decimal number).all Char.isDigit = true :=
      List.all_eq_true.mpr fun c hc => isDigit_of_mem_decimal hc
    have hne : (decimal number).isEmpty = false := by
      rw [List.isEmpty_eq_false_iff]
      exact Nat.toDigits_ne_nil
    have hvalue : Nat.ofDigitChars 10 (decimal number) 0 = number :=
      Nat.ofDigitChars_toDigits (by decide) (by decide)
    unfold parseDigits
    rw [hall, hne, hvalue]
    simp only [Bool.not_true, Bool.or_self, Bool.false_eq_true, if_false]
    rw [if_pos (by omega)]
  unfold parseI64
  split
  · rename_i rest hsign
    have hmem : '-' ∈ decimal number := by
      rw [hsign]
      exact List.mem_cons_self
    cases isDigit_of_mem_decimal hmem
  · rename_i rest hsign
    have hmem : '+' ∈ decimal number := by
      rw [hsign]
      exact List.mem_cons_self
    cases isDigit_of_mem_decimal hmem
  · exact hdigits

theorem everyOther_cons {α : Type} (a : α) (rest : List α) :
    everyOther (a :: rest) = a :: everyOther (rest.drop 1) := by
  cases rest <;> rfl

theorem readWord_eq_ok {word : UInt16} (h : readWord dictionary index token = .ok word) :
    word.toNat < 2 ^ 11 ∧ dictionary.word word = token := by
  obtain ⟨found, hfound, rfl⟩ := map_eq_ok.mp h
  obtain ⟨hlt, htoken⟩ := index?_eq_some (okOr_eq_ok.mp hfound)
  have hsize := UInt16.toNat_ofNat_of_lt' (Nat.lt_trans hlt (show 2048 < UInt16.size by decide))
  rw [hsize]
  exact ⟨hlt, htoken⟩

theorem readNumber_eq_ok {number : UInt16} (h : readNumber index token = .ok number) :
    number.toNat < 2 ^ 13 ∧ parseI64 token = some (number.toNat : Int) := by
  obtain ⟨found, hfound, hrange⟩ := bind_eq_ok.mp h
  rcases ite_eq_ok hrange with ⟨⟨hlow, hhigh⟩, hdone⟩ | ⟨_, hfailed⟩
  · cases hdone
    have hlt : found.toNat < 2 ^ 13 := by
      have hlimit : ((numberLimit : Nat) : Int) = 8192 := rfl
      omega
    have hsize := UInt16.toNat_ofNat_of_lt' (Nat.lt_trans hlt (show 2 ^ 13 < UInt16.size by decide))
    rw [hsize, okOr_eq_ok.mp hfound]
    exact ⟨hlt, by rw [Int.toNat_of_nonneg hlow]⟩
  · cases hfailed

/-- What was read of tokens that are accepted. -/
theorem readAll_canonical {count start : Nat} {tokens : List Token} {words numbers : List UInt16}
    (hlength : tokens.length = 2 * count + 1)
    (hwords : readAll (readWord dictionary) start (everyOther tokens) = .ok words)
    (hnumbers : readAll readNumber start (everyOther (tokens.drop 1)) = .ok numbers) :
    ∃ pairs last, pairs.length = count ∧ PhraseFits pairs last ∧ words = pairs.map (·.1) ++ [last] ∧
      numbers = pairs.map (·.2) ∧ canonicalTokens tokens = tokensOf dictionary pairs last := by
  induction count generalizing start tokens words numbers with
  | zero =>
    obtain ⟨token, rfl⟩ := List.length_eq_one_iff.mp hlength
    obtain ⟨word, hword, hdone⟩ := bind_eq_ok.mp hwords
    cases hdone
    cases hnumbers
    obtain ⟨hlt, htoken⟩ := readWord_eq_ok hword
    refine ⟨[], word, rfl, ⟨by simp, hlt⟩, rfl, rfl, ?_⟩
    rw [tokensOf, htoken]
    rfl
  | succ count ih =>
    match tokens, hlength with
    | wordToken :: numberToken :: rest, hlength =>
      have hrest : rest.length = 2 * count + 1 := by
        simp only [List.length_cons] at hlength
        omega
      obtain ⟨word, hword, hwordsTail⟩ := bind_eq_ok.mp hwords
      obtain ⟨words', hwords', hdone⟩ := bind_eq_ok.mp hwordsTail
      cases hdone
      rw [List.drop_one, List.tail_cons, everyOther_cons] at hnumbers
      obtain ⟨number, hnumber, hnumbersTail⟩ := bind_eq_ok.mp hnumbers
      obtain ⟨numbers', hnumbers', hdone⟩ := bind_eq_ok.mp hnumbersTail
      cases hdone
      obtain ⟨pairs, last, hcount, hfits, rfl, rfl, hcanonical⟩ := ih hrest hwords' hnumbers'
      obtain ⟨hwordLt, hwordToken⟩ := readWord_eq_ok hword
      obtain ⟨hnumberLt, hnumberToken⟩ := readNumber_eq_ok hnumber
      refine ⟨(word, number) :: pairs, last, by rw [List.length_cons, hcount],
        ⟨List.forall_mem_cons.mpr ⟨⟨hwordLt, hnumberLt⟩, hfits.pairs⟩, hfits.last⟩, rfl, rfl, ?_⟩
      rw [canonicalTokens, hnumberToken, hcanonical, tokensOf, hwordToken]
      rfl

theorem readWord_word {word : UInt16} (h : word.toNat < 2 ^ 11) :
    readWord dictionary index (dictionary.word word) = .ok word := by
  rw [readWord, index?_word h]
  show Except.ok (UInt16.ofNat word.toNat) = _
  rw [UInt16.ofNat_toNat]

theorem readNumber_decimal {number : UInt16} (h : number.toNat < 2 ^ 13) :
    readNumber index (decimal number.toNat) = .ok number := by
  have hlimit : ((numberLimit : Nat) : Int) = 8192 := rfl
  have hparsed : okOr (RecoveryPhraseError.number index) (parseI64 (decimal number.toNat)) =
      .ok (number.toNat : Int) := by
    rw [parseI64_decimal number.toNat (Nat.lt_trans h (by decide))]
    rfl
  rw [readNumber, hparsed, ok_bind, if_pos (by omega), Int.toNat_natCast, UInt16.ofNat_toNat]

/-- Words and numbers are read back from their tokens. -/
theorem readAll_tokensOf (h : PhraseFits pairs last) (start : Nat) :
    readAll (readWord dictionary) start (everyOther (tokensOf dictionary pairs last)) =
        .ok (pairs.map (·.1) ++ [last]) ∧
      readAll readNumber start (everyOther ((tokensOf dictionary pairs last).drop 1)) =
        .ok (pairs.map (·.2)) := by
  induction pairs generalizing start with
  | nil =>
    refine ⟨?_, rfl⟩
    show (do let word ← readWord dictionary start (dictionary.word last); _) = _
    rw [readWord_word h.last]
    rfl
  | cons pair pairs ih =>
    obtain ⟨hword, hnumber⟩ := h.pairs pair List.mem_cons_self
    obtain ⟨hwords, hnumbers⟩ := ih h.tail (start + 1)
    have htokens : tokensOf dictionary (pair :: pairs) last = dictionary.word pair.1 ::
      decimal pair.2.toNat :: tokensOf dictionary pairs last := rfl
    rw [htokens]
    constructor
    · rw [everyOther_cons, readAll, readWord_word hword, ok_bind]
      show readAll (readWord dictionary) (start + 1)
        (everyOther (tokensOf dictionary pairs last)) >>= _ = _
      rw [hwords]
      rfl
    · rw [List.drop_one, List.tail_cons, everyOther_cons, readAll, readNumber_decimal hnumber,
        ok_bind, hnumbers]
      rfl

theorem length_tokensOf (pairs : Pairs) (last : UInt16) :
    (tokensOf dictionary pairs last).length = 2 * pairs.length + 1 := by
  induction pairs with
  | nil => rfl
  | cons pair pairs ih =>
    show (tokensOf dictionary pairs last).length + 2 = _
    rw [ih, List.length_cons]
    omega

/-! ## Text -/

/-- A token of a text. -/
def Plain (token : Token) : Prop := token ≠ [] ∧ ∀ c ∈ token, isWhitespace c = false

theorem plain_decimal (number : Nat) : Plain (decimal number) := by
  refine ⟨Nat.toDigits_ne_nil, fun c hc => ?_⟩
  have hdigit := isDigit_of_mem_decimal hc
  have hcode : 48 ≤ c.toNat ∧ c.toNat ≤ 57 := by
    rw [Char.isDigit, Bool.and_eq_true, decide_eq_true_eq, decide_eq_true_eq] at hdigit
    exact ⟨UInt32.le_iff_toNat_le.mp hdigit.1, UInt32.le_iff_toNat_le.mp hdigit.2⟩
  simp only [isWhitespace, Bool.or_eq_false_iff, Bool.and_eq_false_iff, decide_eq_false_iff_not]
  omega

theorem plain_word {index : UInt16} (h : index.toNat < 2 ^ 11) : Plain (dictionary.word index) := by
  have hlt : index.toNat < dictionary.words.length := by
    rw [dictionary.length_eq]
    exact h
  rw [Dictionary.word, List.getD_eq_getElem _ _ hlt]
  exact dictionary.plain _ (List.getElem_mem hlt)

theorem plain_tokensOf (h : PhraseFits pairs last) :
    ∀ token ∈ tokensOf dictionary pairs last, Plain token := by
  induction pairs with
  | nil =>
    intro token htoken
    rw [List.mem_singleton.mp htoken]
    exact plain_word h.last
  | cons pair pairs ih =>
    exact List.forall_mem_cons.mpr ⟨plain_word (h.pairs pair List.mem_cons_self).1,
      List.forall_mem_cons.mpr ⟨plain_decimal _, ih h.tail⟩⟩

theorem splitFrom_append (htoken : ∀ c ∈ token, isWhitespace c = false) (before : Token)
    (text : List Char) : splitFrom before (token ++ text) = splitFrom (before ++ token) text := by
  induction token generalizing before with
  | nil => rw [List.nil_append, List.append_nil]
  | cons c token ih =>
    rw [List.forall_mem_cons] at htoken
    rw [List.cons_append, splitFrom, if_neg (by rw [htoken.1]; exact Bool.false_ne_true),
      ih htoken.2, List.append_assoc, List.singleton_append]

theorem splitWhitespace_joined {tokens : List Token} (h : ∀ token ∈ tokens, Plain token) :
    splitWhitespace (joined tokens) = tokens := by
  induction tokens with
  | nil => rfl
  | cons token tokens ih =>
    rw [List.forall_mem_cons] at h
    obtain ⟨⟨hne, hplain⟩, hrest⟩ := h
    have hempty : token.isEmpty = false := List.isEmpty_eq_false_iff.mpr hne
    cases tokens with
    | nil =>
      have hjoined : joined [token] = token ++ [] := by simp [joined]
      rw [splitWhitespace, hjoined, splitFrom_append hplain, List.nil_append, splitFrom,
        hempty]
      rfl
    | cons next tokens =>
      have hjoined : joined (token :: next :: tokens) =
          token ++ ' ' :: joined (next :: tokens) := by
        simp [joined, List.intercalate]
      have hspace : isWhitespace ' ' = true := by decide
      rw [splitWhitespace, hjoined, splitFrom_append hplain, List.nil_append, splitFrom,
        if_pos hspace, hempty]
      show token :: splitWhitespace (joined (next :: tokens)) = _
      rw [ih hrest]

end

/-! ## Seeds and phrases -/

theorem zip_pairs (pairs : Pairs) (last : UInt16) :
    (pairs.map (·.1) ++ [last]).zip (pairs.map (·.2)) = pairs := by
  induction pairs with
  | nil => rfl
  | cons pair pairs ih =>
    rw [List.map_cons, List.cons_append, List.map_cons, List.zip_cons_cons, ih]

theorem pushPhrase_value (h : PhraseFits pairs last) (hlength : pairs.length = 8) :
    ∃ seed, pushPhrase (pairs.map (·.1) ++ [last]) (pairs.map (·.2)) = .ok seed ∧
      value seed = pack pairs last := by
  have hlast : (pairs.map (·.1) ++ [last]).getD (backupWords - 1) 0 = last := by
    have hat : backupWords - 1 = (pairs.map (·.1)).length := by
      rw [List.length_map, hlength]
      rfl
    rw [hat, List.getD_append_right _ _ _ _ (Nat.le_refl _), Nat.sub_self]
    rfl
  have hzero : value zeroSeed = 0 := by decide +kernel
  obtain ⟨first, hfirst, hvalue⟩ : ∃ seed', pushBits zeroSeed last wordBits = .ok seed' ∧
      value seed' = value zeroSeed * 2 ^ 11 + last.toNat :=
    pushBits_value (by decide) h.last (by rw [hzero]; decide)
  obtain ⟨seed, hseed, hpack⟩ := pushPairs_value h (Nat.le_of_eq hlength)
    (show value first = last.toNat by rw [hvalue, hzero]; omega)
  refine ⟨seed, ?_, hpack⟩
  rw [pushPhrase, hlast, hfirst, zip_pairs]
  exact hseed

theorem fromSeed_eq_ok {key : BackupKey} : BackupKey.fromSeed seed = .ok key ↔ key.seed = seed := by
  unfold BackupKey.fromSeed
  constructor
  · intro h
    split at h
    · cases h
      rfl
    · cases h
  · rintro rfl
    rw [dif_pos key.highBits]

theorem fromPhrase_eq_ok {dictionary : Dictionary} {text : List Char} {key : BackupKey}
    (h : fromPhrase dictionary text = .ok key) :
    phrase dictionary key = canonicalTokens (splitWhitespace text) := by
  unfold fromPhrase at h
  obtain ⟨hcount, hread⟩ := ite_error_eq_ok.mp h
  rw [not_not] at hcount
  obtain ⟨words, hwords, htail⟩ := bind_eq_ok.mp hread
  obtain ⟨numbers, hnumbers, hpush⟩ := bind_eq_ok.mp htail
  obtain ⟨seed, hseed, hkey⟩ := bind_eq_ok.mp hpush
  obtain ⟨pairs, last, hlength, hfits, rfl, rfl, hcanonical⟩ :=
    @readAll_canonical dictionary 8 0 _ _ _ hcount hwords hnumbers
  obtain ⟨seed', hseed', hvalue⟩ := pushPhrase_value hfits hlength
  rw [hseed] at hseed'
  cases hseed'
  have hkeySeed := fromSeed_eq_ok.mp hkey
  have hpack : value key.seed = pack pairs last := by rw [hkeySeed, hvalue]
  rw [hcanonical, ← takeTokens_pack hfits hpack, hlength]
  rfl

/-- The phrase of a key gives the key back. -/
theorem fromPhrase_phrase (dictionary : Dictionary) (key : BackupKey) :
    fromPhrase dictionary (joined (phrase dictionary key)) = .ok key := by
  obtain ⟨pairs, last, hlength, hfits, hpack⟩ :=
    exists_pack 8 ((highBits_iff key.seed).mp key.highBits)
  have hphrase : phrase dictionary key = tokensOf dictionary pairs last := by
    rw [← takeTokens_pack hfits hpack.symm, hlength]
    rfl
  have hsplit : splitWhitespace (joined (tokensOf dictionary pairs last)) =
      tokensOf dictionary pairs last := splitWhitespace_joined (plain_tokensOf hfits)
  have hcount : (tokensOf dictionary pairs last).length = recoveryPhraseTokens := by
    rw [length_tokensOf, hlength]
    rfl
  obtain ⟨hwords, hnumbers⟩ := @readAll_tokensOf _ _ dictionary hfits 0
  obtain ⟨seed, hseed, hvalue⟩ := pushPhrase_value hfits hlength
  rw [hphrase, fromPhrase, hsplit, if_neg (not_not.mpr hcount), hwords, ok_bind, hnumbers, ok_bind,
    hseed, ok_bind, fromSeed_eq_ok]
  exact value_inj (by rw [hvalue, hpack])

/-- Recovery phrases are a bijection: a key comes back from its phrase, the phrase of what a text
    was read as is the text's canonical form, and texts with different canonical forms are read as
    different keys. -/
theorem recovery_phrase_bijection (dictionary : Dictionary) :
    (∀ key, fromPhrase dictionary (joined (phrase dictionary key)) = .ok key) ∧
      (∀ text key, fromPhrase dictionary text = .ok key →
        phrase dictionary key = canonicalTokens (splitWhitespace text)) ∧
      ∀ text text' key key', fromPhrase dictionary text = .ok key →
        fromPhrase dictionary text' = .ok key' →
        canonicalTokens (splitWhitespace text) ≠ canonicalTokens (splitWhitespace text') →
        key ≠ key' := by
  refine ⟨fromPhrase_phrase dictionary, fun text key h => fromPhrase_eq_ok h, ?_⟩
  rintro text text' key _ h h' hdiffer rfl
  exact hdiffer ((fromPhrase_eq_ok h).symm.trans (fromPhrase_eq_ok h'))

end

/-! ## A dictionary -/

namespace PhraseSample

def letter (digit : Nat) : Char := Char.ofNat (97 + digit)

/-- Words of three letters, in order. -/
def spelled (index : Nat) : Token :=
  [letter (index / 256), letter (index / 16 % 16), letter (index % 16)]

theorem letter_lt : ∀ a < 16, ∀ b < 16, a < b → letter a < letter b := by decide

theorem letter_plain : ∀ a < 16, isWhitespace (letter a) = false := by decide

theorem spelled_lt {a b : Nat} (hb : b < 2048) (h : a < b) : spelled a < spelled b := by
  unfold spelled
  have hmid (n : Nat) : n / 16 % 16 < 16 := Nat.mod_lt _ (by decide)
  have hlow (n : Nat) : n % 16 < 16 := Nat.mod_lt _ (by decide)
  rw [List.cons_lt_cons_iff, List.cons_lt_cons_iff, List.cons_lt_cons_iff]
  rcases Nat.lt_trichotomy (a / 256) (b / 256) with hhigh | hhigh | hhigh
  · exact .inl (letter_lt _ (by omega) _ (by omega) hhigh)
  · refine .inr ⟨congrArg letter hhigh, ?_⟩
    rcases Nat.lt_trichotomy (a / 16 % 16) (b / 16 % 16) with hmiddle | hmiddle | hmiddle
    · exact .inl (letter_lt _ (hmid a) _ (hmid b) hmiddle)
    · exact .inr ⟨congrArg letter hmiddle, .inl (letter_lt _ (hlow a) _ (hlow b) (by omega))⟩
    · omega
  · omega

theorem spelled_plain (h : index < 2048) :
    spelled index ≠ [] ∧ ∀ c ∈ spelled index, isWhitespace c = false := by
  refine ⟨nofun, fun c hc => ?_⟩
  simp only [spelled, List.mem_cons, List.not_mem_nil, or_false] at hc
  rcases hc with rfl | rfl | rfl
  · exact letter_plain _ (by omega)
  · exact letter_plain _ (Nat.mod_lt _ (by decide))
  · exact letter_plain _ (Nat.mod_lt _ (by decide))

theorem spelled_length : ((List.range 2048).map spelled).length = 2048 := by
  rw [List.length_map, List.length_range]

theorem spelled_sorted : ((List.range 2048).map spelled).Pairwise (· < ·) := by
  rw [List.pairwise_map]
  exact List.pairwise_lt_range.imp_of_mem fun _ hb h => spelled_lt (List.mem_range.mp hb) h

theorem spelled_all_plain : ∀ word ∈ (List.range 2048).map spelled,
    word ≠ [] ∧ ∀ c ∈ word, isWhitespace c = false := by
  intro word hword
  obtain ⟨index, hindex, rfl⟩ := List.mem_map.mp hword
  exact spelled_plain (List.mem_range.mp hindex)

def dictionary : Dictionary :=
  ⟨(List.range 2048).map spelled, spelled_length, spelled_sorted, spelled_all_plain⟩

/-- Every byte of the seed is another one. -/
def seedBytes : List UInt8 := (List.range 26).map fun index => UInt8.ofNat (7 + 9 * index)

theorem seedBytes_length : seedBytes.length = backupSeedBytes := rfl

theorem seedBytes_highBits : seedBytes.getD 0 0 &&& ~~~backupTopMask = 0 := by decide

def key : BackupKey := ⟨⟨seedBytes, seedBytes_length⟩, seedBytes_highBits⟩

/-- The phrase of the seed has bits in all of its words and numbers, is read as the seed and is its
    own canonical form. -/
theorem key_phrase : phrase dictionary key = tokensOf dictionary
      [(2024, 6875), (1229, 6008), (434, 5141), (1687, 4273), (892, 3406), (97, 2539), (1350, 1671),
        (555, 804)] 1808 ∧
    fromPhrase dictionary (joined (phrase dictionary key)) = .ok key ∧
    phrase dictionary key =
      canonicalTokens (splitWhitespace (joined (phrase dictionary key))) := by
  have hall := recovery_phrase_bijection dictionary
  exact ⟨by decide +kernel, hall.1 key, hall.2.1 _ _ (hall.1 key)⟩

end PhraseSample

end Foks.Crypto
