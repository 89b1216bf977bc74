/-
  What a run of the Snowpack decoder reads.

  `Reads d v body k d'` says that the decoder `d` stands before `body`, ends behind it as `d'`,
  charges `k` values, and takes the value `v` from it. `dispatch_sound` and `dispatch_complete`
  relate the match on the marker byte to it, one arm per value class, given the same of the
  reader of the elements one level below (`ItemSound`, `ItemComplete`).
-/
import Foks.Snowpack.Decode

namespace Foks.Snowpack

open Foks.Lib

/-! ## Signable values -/

mutual

/-- No array of 16 to 31 elements anywhere: the rule `validate_signable` adds. -/
def Signable : Value → Prop
  | .array values => ¬ (16 ≤ values.length ∧ values.length ≤ 31) ∧ SignableAll values
  | .variant _ value => Signable value
  | .null | .bool _ | .unsigned _ | .negative _ | .binary _ | .text _ | .variantNone => True

def SignableAll : List Value → Prop
  | [] => True
  | v :: vs => Signable v ∧ SignableAll vs

end

/-! ## Marker bytes that carry a length -/

theorem fixtext_marker (m : UInt8) (hlo : 0xa0 ≤ m) (hhi : m ≤ 0xbf) :
    (m &&& 0x1f).toNat ≤ 31 ∧ 0xa0 ||| UInt8.ofNat (m &&& 0x1f).toNat = m := by
  revert m
  exact forall_byte (by decide +kernel)

variable {n : Nat}

theorem fixtext_length (h : n ≤ 31) :
    0xa0 ≤ (0xa0 ||| UInt8.ofNat n) ∧ (0xa0 ||| UInt8.ofNat n) ≤ 0xbf ∧
      ((0xa0 ||| UInt8.ofNat n) &&& 0x1f).toNat = n := by
  revert n
  decide

theorem fixarray_marker (m : UInt8) (hlo : 0x91 ≤ m) (hhi : m ≤ 0x9f) :
    1 ≤ (m &&& 0x0f).toNat ∧ (m &&& 0x0f).toNat ≤ 15 ∧
      0x90 ||| UInt8.ofNat (m &&& 0x0f).toNat = m := by
  revert m
  exact forall_byte (by decide +kernel)

theorem fixarray_length (h : n ≤ 15) (h0 : n ≠ 0) :
    0x91 ≤ (0x90 ||| UInt8.ofNat n) ∧ (0x90 ||| UInt8.ofNat n) ≤ 0x9f ∧
      ((0x90 ||| UInt8.ofNat n) &&& 0x0f).toNat = n := by
  revert n
  decide

/-- The one-byte negatives are the bytes from `0xe0` on. -/
theorem negfix_marker (m : UInt8) (h : 0xe0 ≤ m) :
    -32 ≤ signedOfBE [m] ∧ signedOfBE [m] < 0 := by
  revert m
  exact forall_byte (by decide +kernel)

theorem negfix_marker_ge (m : UInt8) (hlo : -32 ≤ signedOfBE [m]) (hhi : signedOfBE [m] < 0) :
    0xe0 ≤ m := by
  revert m
  exact forall_byte (by decide +kernel)

/-! ## Positions in the input -/

variable {s bs : List UInt8} {v : Value} {w shorter : Nat}

namespace Decoder

variable {d d' : Decoder}

section

variable (d : Decoder)

/-- The decoder stands before the bytes `s`. -/
def At (s : List UInt8) : Prop :=
  d.offset ≤ d.input.length ∧ d.input.drop d.offset = s

variable (n k : Nat)

/-- The decoder `n` bytes further on, with `k` more values charged. -/
def advance : Decoder :=
  { d with offset := d.offset + n, values := d.values + k }

@[simp] theorem advance_advance (n k n' k' : Nat) :
    (d.advance n k).advance n' k' = d.advance (n + n') (k + k') := by
  simp [advance, Nat.add_assoc]

@[simp] theorem advance_path : (d.advance n k).path = d.path := rfl

@[simp] theorem advance_signable : (d.advance n k).signable = d.signable := rfl

@[simp] theorem advance_values : (d.advance n k).values = d.values + k := rfl

@[simp] theorem advance_limit : (d.advance n k).limit = d.limit := rfl

@[simp] theorem advance_offset : (d.advance n k).offset = d.offset + n := rfl

variable (seg : PathSegment)

@[simp] theorem push_offset : (d.push seg).offset = d.offset := rfl

@[simp] theorem push_values : (d.push seg).values = d.values := rfl

@[simp] theorem push_limit : (d.push seg).limit = d.limit := rfl

@[simp] theorem push_signable : (d.push seg).signable = d.signable := rfl

@[simp] theorem push_path : (d.push seg).path = d.path ++ [seg] := rfl

@[simp] theorem at_push {seg : PathSegment} : (d.push seg).At s ↔ d.At s :=
  Iff.rfl

@[simp] theorem pop_push_advance : ((d.push seg).advance n k).pop d.path = d.advance n k := rfl

end

theorem At.advance {bs s : List UInt8} (h : d.At (bs ++ s)) (k : Nat) :
    (d.advance bs.length k).At s := by
  obtain ⟨hle, hdrop⟩ := h
  have hlen := congrArg List.length hdrop
  rw [List.length_drop, List.length_append] at hlen
  refine ⟨?_, ?_⟩
  · simp only [Decoder.advance]
    omega
  · simp only [Decoder.advance]
    rw [← List.drop_drop, hdrop, List.drop_left]

theorem At.advance_one {b : UInt8} (h : d.At (b :: s)) (k : Nat) :
    (d.advance 1 k).At s := @At.advance d [b] s h k

theorem At.advance_nil (h : d.At s) (k : Nat) : (d.advance 0 k).At s :=
  @At.advance d [] s h k

/-- Two stretches read one after the other are one stretch. -/
theorem At.join {cs t : List UInt8} {k : Nat} (h : d.At (bs ++ s))
    (h' : (d.advance bs.length k).At (cs ++ t)) : d.At ((bs ++ cs) ++ t) := by
  have hst : s = cs ++ t := (h.advance k).2.symm.trans h'.2
  rw [List.append_assoc, ← hst]
  exact h

theorem At.length_le (h : d.At (bs ++ s)) : d.offset + bs.length ≤ d.input.length := by
  have hlen := congrArg List.length h.2
  rw [List.length_drop, List.length_append] at hlen
  have := h.1
  omega

theorem byte_eq_ok_iff {b : UInt8} :
    d.byte = .ok (b, d') ↔ (∃ s, d.At (b :: s)) ∧ d' = d.advance 1 0 := by
  unfold byte
  constructor
  · intro h
    split at h
    · cases h
    · rename_i c hc
      cases h
      obtain ⟨hlt, rfl⟩ := List.getElem?_eq_some_iff.mp hc
      exact ⟨⟨_, by omega, List.drop_eq_getElem_cons hlt⟩, rfl⟩
  · rintro ⟨⟨s, hle, hdrop⟩, rfl⟩
    have hget : d.input[d.offset]? = some b := by
      rw [← List.head?_drop, hdrop]
      rfl
    rw [hget]
    rfl

theorem bytes_eq_ok_iff : d.bytes n = .ok (bs, d') ↔
      bs.length = n ∧ d.offset + n < 2 ^ 64 ∧ (∃ s, d.At (bs ++ s)) ∧ d' = d.advance n 0 := by
  unfold bytes checkedAdd
  constructor
  · intro h
    split at h
    · cases h
    · rename_i stop hstop
      rw [Option.ite_none_right_eq_some] at hstop
      obtain ⟨hlt, hstop⟩ := hstop
      cases hstop
      obtain ⟨hle, h⟩ := ite_error_eq_ok.mp h
      cases h
      refine ⟨?_, hlt, ⟨(d.input.drop d.offset).drop n, by omega, ?_⟩, rfl⟩
      · rw [List.length_take, List.length_drop]
        omega
      · rw [List.take_append_drop]
  · rintro ⟨hlen, hlt, ⟨s, hat⟩, rfl⟩
    have hle := hat.length_le
    rw [if_pos hlt]
    simp only
    rw [if_neg (by omega), hat.2, ← hlen, List.take_left]
    simp [advance]

theorem uint_eq_ok_iff : d.uint w = .ok (n, d') ↔
      n < 256 ^ w ∧ d.offset + w < 2 ^ 64 ∧ (∃ s, d.At (toBE w n ++ s)) ∧ d' = d.advance w 0 := by
  unfold uint
  rw [bind_eq_ok]
  constructor
  · rintro ⟨⟨bs, d₁⟩, hbs, h⟩
    obtain ⟨hlen, hlt, hat, rfl⟩ := bytes_eq_ok_iff.mp hbs
    cases h
    subst hlen
    exact ⟨ofBE_lt bs, hlt, by rwa [toBE_ofBE], rfl⟩
  · rintro ⟨hn, hlt, hat, rfl⟩
    refine ⟨(toBE w n, d.advance w 0), bytes_eq_ok_iff.mpr ⟨toBE_length w n, hlt, hat, rfl⟩, ?_⟩
    simp [ofBE_toBE w n hn]

theorem sint_eq_ok_iff {n : Int} : d.sint w = .ok (n, d') ↔
      (-(256 ^ w : Nat) ≤ 2 * n ∧ 2 * n < (256 ^ w : Nat)) ∧ d.offset + w < 2 ^ 64 ∧
        (∃ s, d.At (signedToBE w n ++ s)) ∧ d' = d.advance w 0 := by
  unfold sint
  rw [bind_eq_ok]
  constructor
  · rintro ⟨⟨bs, d₁⟩, hbs, h⟩
    obtain ⟨hlen, hlt, hat, rfl⟩ := bytes_eq_ok_iff.mp hbs
    cases h
    subst hlen
    exact ⟨signedOfBE_bounds bs, hlt, by rwa [signedToBE_signedOfBE], rfl⟩
  · rintro ⟨⟨hlo, hhi⟩, hlt, hat, rfl⟩
    refine ⟨(signedToBE w n, d.advance w 0),
      bytes_eq_ok_iff.mpr ⟨signedToBE_length w n, hlt, hat, rfl⟩, ?_⟩
    simp [signedOfBE_signedToBE w n hlo hhi]

/-! ## The arms of the match -/

/-- A payload as it stands in the input: `binary` and `text`. -/
theorem payload_eq_ok_iff {mk : List UInt8 → Value} : (do
      let (bs, d) ← d.bytes n
      .ok (mk bs, d)) = .ok (v, d') ↔
    ∃ bs, v = mk bs ∧ bs.length = n ∧ d.offset + n < 2 ^ 64 ∧ (∃ s, d.At (bs ++ s)) ∧
      d' = d.advance n 0 := by
  rw [bind_eq_ok]
  constructor
  · rintro ⟨⟨bs, d₁⟩, hbs, h⟩
    cases h
    exact ⟨bs, rfl, bytes_eq_ok_iff.mp hbs⟩
  · rintro ⟨bs, rfl, h⟩
    exact ⟨(bs, d'), bytes_eq_ok_iff.mpr h, rfl⟩

theorem above_eq_ok_iff {which : String} :
    d.above w shorter which = .ok (n, d') ↔ shorter < n ∧ n < 256 ^ w ∧ d.offset + w < 2 ^ 64 ∧
      (∃ s, d.At (toBE w n ++ s)) ∧ d' = d.advance w 0 := by
  unfold above
  rw [bind_eq_ok]
  constructor
  · rintro ⟨⟨m, d₁⟩, hm, h⟩
    obtain ⟨hmin, h⟩ := ite_error_eq_ok.mp h
    cases h
    exact ⟨by omega, uint_eq_ok_iff.mp hm⟩
  · rintro ⟨hmin, h⟩
    refine ⟨(n, d'), uint_eq_ok_iff.mpr h, ?_⟩
    simp only
    rw [if_neg (by omega)]

theorem unsignedAbove_eq_ok_iff (hw : 256 ^ w ≤ 2 ^ 64) :
    d.unsignedAbove w shorter = .ok (v, d') ↔ ∃ n : UInt64, v = .unsigned n ∧
      shorter < n.toNat ∧ n.toNat < 256 ^ w ∧ d.offset + w < 2 ^ 64 ∧
      (∃ s, d.At (toBE w n.toNat ++ s)) ∧ d' = d.advance w 0 := by
  unfold unsignedAbove
  rw [bind_eq_ok]
  constructor
  · rintro ⟨⟨n, d₁⟩, hn, h⟩
    obtain ⟨hmin, hlt, hoff, hat, rfl⟩ := above_eq_ok_iff.mp hn
    cases h
    have hval : (UInt64.ofNat n).toNat = n := toNat_ofNat64 (by omega)
    exact ⟨UInt64.ofNat n, rfl, by omega, by omega, hoff, by rwa [hval], rfl⟩
  · rintro ⟨n, rfl, h⟩
    refine ⟨(n.toNat, d'), above_eq_ok_iff.mpr h, ?_⟩
    simp only
    rw [UInt64.ofNat_toNat]

theorem signedBelow_eq_ok_iff {shorter : Int} (hw : 256 ^ w ≤ 2 ^ 64) (hs : shorter ≤ 0) :
    d.signedBelow w shorter = .ok (v, d') ↔ ∃ n : Int64, v = .negative n ∧
      n.toInt < shorter ∧ -(256 ^ w : Nat) ≤ 2 * n.toInt ∧ d.offset + w < 2 ^ 64 ∧
      (∃ s, d.At (signedToBE w n.toInt ++ s)) ∧ d' = d.advance w 0 := by
  unfold signedBelow
  rw [bind_eq_ok]
  constructor
  · rintro ⟨⟨n, d₁⟩, hn, h⟩
    obtain ⟨⟨hlo, hhi⟩, hoff, hat, rfl⟩ := sint_eq_ok_iff.mp hn
    obtain ⟨hneg, h⟩ := ite_error_eq_ok.mp h
    obtain ⟨hmin, h⟩ := ite_error_eq_ok.mp h
    cases h
    have hval : (Int64.ofInt n).toInt = n := Int64.toInt_ofInt_of_le (by omega) (by omega)
    exact ⟨Int64.ofInt n, rfl, by omega, by omega, hoff, by rwa [hval], rfl⟩
  · rintro ⟨n, rfl, hmin, hlo, hoff, hat, rfl⟩
    refine ⟨(n.toInt, d.advance w 0), sint_eq_ok_iff.mpr ⟨⟨hlo, by omega⟩, hoff, hat, rfl⟩, ?_⟩
    simp only
    rw [if_neg (by omega), if_neg (by omega), Int64.ofInt_toInt]

end Decoder

/-! ## What a run reads -/

/-- Reading `v` from the bytes `body`, charging `k` values: where the run ends, and what it
    found out about `v`. -/
structure Reads (d : Decoder) (v : Value) (body : List UInt8) (k : Nat) (d' : Decoder) : Prop where
  atBody : ∃ s, d.At (body ++ s)
  next : d' = d.advance body.length k
  fits : Fits d.path.length v
  signable : d.signable = true → Signable v
  budget : d.values + k ≤ d.limit

/-- The same for the elements of an array. -/
structure ReadsAll (d : Decoder) (vs : List Value) (d' : Decoder) : Prop where
  atBody : ∃ s, d.At (wires vs ++ s)
  next : d' = d.advance (wires vs).length (Value.sizes vs)
  fits : FitsAll (d.path.length + 1) vs
  signable : d.signable = true → SignableAll vs
  budget : d.values + Value.sizes vs ≤ d.limit

theorem wire_length_pos (v : Value) : 1 ≤ (wire v).length := by
  cases v with
  | bool b => cases b <;> simp [wire]
  | unsigned n =>
    simp only [wire, unsignedBytes]
    split_ifs <;> simp
  | negative n =>
    simp only [wire, negativeBytes]
    split_ifs <;> simp
  | binary bs =>
    simp only [wire, binaryHeader, lenHeader]
    split_ifs <;> simp
  | text bs =>
    simp only [wire, textHeader]
    split_ifs <;> simp
  | array vs =>
    simp only [wire, arrayHeader]
    split_ifs <;> simp
  | _ => simp [wire, variantHeader]

theorem wires_length_ge (vs : List Value) : vs.length ≤ (wires vs).length := by
  induction vs with
  | nil => simp [wires]
  | cons v vs ih =>
    have := wire_length_pos v
    simp only [wires, List.length_cons, List.length_append]
    omega

variable {header : List UInt8}

section

variable (item : Decoder → Except Error (Value × Decoder)) (depth : Nat)

/-- Whatever `item` reads at this depth, it read as `Reads` says. -/
def ItemSound : Prop :=
  ∀ d v d', d.path.length = depth → item d = .ok (v, d') → Reads d v (wire v) v.size d'

/-- Whatever can be read at this depth, `item` reads. -/
def ItemComplete : Prop :=
  ∀ d v d', d.path.length = depth → d.offset + (wire v).length < 2 ^ 64 →
    Reads d v (wire v) v.size d' → item d = .ok (v, d')

variable {item depth}

theorem arrayItems_sound (hitem : ItemSound item (depth + 1)) (n index : Nat) (d d' : Decoder)
    (vs : List Value) (hd : d.path.length = depth) (hat : ∃ s, d.At s)
    (hval : d.values ≤ d.limit)
    (h : Decoder.arrayItems item n index d = .ok (vs, d')) :
    vs.length = n ∧ ReadsAll d vs d' := by
  induction n generalizing index d vs with
  | zero =>
    cases h
    exact ⟨rfl, ⟨by simpa [wires] using hat, rfl, trivial, fun _ => trivial,
      by simpa [Value.sizes] using hval⟩⟩
  | succ n ih =>
    obtain ⟨⟨v, done⟩, hv, h⟩ := bind_eq_ok.mp h
    obtain ⟨⟨ws, last⟩, hws, h⟩ := bind_eq_ok.mp h
    cases h
    obtain ⟨⟨s, hs⟩, rfl, hfit, hsig, hbud⟩ := hitem _ _ _ (by simp [hd]) hv
    have hnext := hs.advance v.size
    obtain ⟨hlen, ⟨t, ht⟩, rfl, hfits, hsigs, hbuds⟩ :=
      ih (index + 1) (d.advance (wire v).length v.size) ws hd ⟨s, hnext⟩ hbud hws
    have hst : s = wires ws ++ t := hnext.2.symm.trans ht.2
    refine ⟨by simp [hlen], ⟨⟨t, ?_⟩, ?_, ⟨by simpa using hfit, hfits⟩, ?_, ?_⟩⟩
    · rw [wires, List.append_assoc, ← hst]
      exact hs
    · rw [Decoder.advance_advance, wires, List.length_append, Value.sizes]
    · exact fun hd => ⟨hsig hd, hsigs hd⟩
    · simpa [Value.sizes, Nat.add_assoc] using hbuds

theorem arrayItems_complete (hitem : ItemComplete item (depth + 1)) (index : Nat)
    (d d' : Decoder) (vs : List Value) (hd : d.path.length = depth)
    (hoff : d.offset + (wires vs).length < 2 ^ 64) (h : ReadsAll d vs d') :
    Decoder.arrayItems item vs.length index d = .ok (vs, d') := by
  induction vs generalizing index d with
  | nil =>
    obtain ⟨-, rfl, -, -, -⟩ := h
    rfl
  | cons v vs ih =>
    obtain ⟨⟨s, hs⟩, rfl, ⟨hfit, hfits⟩, hsig, hbud⟩ := h
    rw [wires, List.length_append] at hoff
    rw [wires, List.append_assoc] at hs
    rw [Value.sizes] at hbud
    have hv : item (d.push (.index index)) =
        .ok (v, (d.push (.index index)).advance (wire v).length v.size) := by
      refine hitem _ _ _ (by simp [hd])
        (by rw [Decoder.push_offset]; omega) ⟨⟨_, hs⟩, rfl, ?_, ?_, ?_⟩
      · simpa using hfit
      · exact fun h => (hsig h).1
      · rw [Decoder.push_values, Decoder.push_limit]
        omega
    have hvs := ih (index + 1) (d.advance (wire v).length v.size) hd
      (by rw [Decoder.advance_offset]; omega)
      ⟨⟨s, hs.advance _⟩, by rw [Decoder.advance_advance, wires, List.length_append, Value.sizes],
        hfits, fun h => (hsig h).2, by
          rw [Decoder.advance_values, Decoder.advance_limit]
          omega⟩
    rw [List.length_cons, Decoder.arrayItems, hv, ok_bind]
    simp only [Decoder.pop_push_advance]
    rw [hvs]
    rfl

variable {d d' : Decoder} {marker : UInt8} {body : List UInt8}

theorem array_sound (hitem : ItemSound item (depth + 1)) (hd : d.path.length = depth)
    (hdepth : depth ≤ maxDepth) (hat : ∃ s, d.At s) (hn : n ≠ 0) (hmax : n ≤ u32Max)
    (hsig : d.signable = true → ¬ (16 ≤ n ∧ n ≤ 31)) (h : d.array item n = .ok (v, d')) :
    ∃ vs, v = .array vs ∧ vs.length = n ∧ Reads d v (wires vs) (Value.sizes vs) d' := by
  obtain ⟨-, h⟩ := ite_error_eq_ok.mp h
  obtain ⟨hval, h⟩ := ite_error_eq_ok.mp h
  obtain ⟨⟨vs, last⟩, hvs, h⟩ := bind_eq_ok.mp h
  cases h
  obtain ⟨hlen, hat, hnext, hfits, hsigs, hbud⟩ :=
    arrayItems_sound hitem n 0 d _ vs hd hat (by omega) hvs
  refine ⟨vs, rfl, hlen, ⟨hat, hnext, ?_, ?_, hbud⟩⟩
  · refine ⟨by omega, ?_, by omega, hfits⟩
    rintro rfl
    exact hn hlen.symm
  · exact fun hs => ⟨by rw [hlen]; exact hsig hs, hsigs hs⟩

theorem array_complete (hitem : ItemComplete item (depth + 1)) {vs : List Value}
    (hd : d.path.length = depth) (hoff : d.offset + (wires vs).length < 2 ^ 64)
    (h : Reads d (.array vs) (wires vs) (Value.sizes vs) d') :
    d.array item vs.length = .ok (.array vs, d') := by
  obtain ⟨⟨s, hs⟩, hnext, ⟨-, -, -, hfits⟩, hsig, hbud⟩ := h
  have hbytes := hs.length_le
  have hlen := wires_length_ge vs
  have hsize := Value.length_le_sizes vs
  have hvs := arrayItems_complete hitem 0 d d' vs hd hoff
    ⟨⟨s, hs⟩, hnext, hfits, fun h => (hsig h).2, hbud⟩
  unfold Decoder.array
  rw [if_neg (by omega), if_neg (by omega), hvs]
  rfl

/-- What follows the marker of a tagged variant. -/
def variantBody (tag : List UInt8) (v : Value) : List UInt8 :=
  (0xa0 ||| UInt8.ofNat tag.length) :: (tag ++ wire v)

theorem variant_sound (hitem : ItemSound item (depth + 1)) (hd : d.path.length = depth)
    (hdepth : depth ≤ maxDepth) (h : d.variant item = .ok (v, d')) :
    ∃ tag w, v = .variant tag w ∧ Reads d v (variantBody tag w) w.size d' := by
  obtain ⟨⟨marker, d₁⟩, hm, h⟩ := bind_eq_ok.mp h
  obtain ⟨⟨s, hs⟩, rfl⟩ := Decoder.byte_eq_ok_iff.mp hm
  obtain ⟨hmk, h⟩ := ite_error_eq_ok.mp h
  obtain ⟨hlo, hhi⟩ := not_not.mp hmk
  obtain ⟨hlen31, hmarker⟩ := fixtext_marker marker hlo hhi
  obtain ⟨⟨tag, d₂⟩, ht, h⟩ := bind_eq_ok.mp h
  obtain ⟨htlen, -, ⟨t, hat⟩, rfl⟩ := Decoder.bytes_eq_ok_iff.mp ht
  obtain ⟨⟨w, done⟩, hw, h⟩ := bind_eq_ok.mp h
  cases h
  obtain ⟨⟨u, hu⟩, rfl, hfit, hsig, hbud⟩ := hitem _ _ _ (by simp [hd]) hw
  -- the three stretches of input: the tag's header byte, the tag, the inner value
  have hone : (d.advance 1 0).At s := hs.advance_one 0
  have hst : s = tag ++ t := hone.2.symm.trans hat.2
  have htag := hat.advance 0
  rw [htlen] at htag
  have htu : t = wire w ++ u := htag.2.symm.trans hu.2
  refine ⟨tag, w, rfl, ⟨⟨u, ?_⟩, ?_, ?_, hsig, by simpa using hbud⟩⟩
  · rw [variantBody, htlen, hmarker, List.cons_append, List.append_assoc, ← htu, ← hst]
    exact hs
  · rw [Decoder.pop_push_advance, Decoder.advance_advance, Decoder.advance_advance, variantBody]
    simp only [List.length_cons, List.length_append, htlen]
    congr 1 <;> omega
  · exact ⟨by omega, by omega, by simpa using hfit⟩

theorem variant_complete (hitem : ItemComplete item (depth + 1)) {tag : List UInt8} {w : Value}
    (hd : d.path.length = depth) (hoff : d.offset + (variantBody tag w).length < 2 ^ 64)
    (h : Reads d (.variant tag w) (variantBody tag w) w.size d') :
    d.variant item = .ok (.variant tag w, d') := by
  obtain ⟨⟨s, hs⟩, rfl, ⟨-, htag, hfit⟩, hsig, hbud⟩ := h
  obtain ⟨hlo, hhi, hlen⟩ := fixtext_length htag
  have hblen : (variantBody tag w).length = 1 + (tag.length + (wire w).length) := by
    simp [variantBody]
    omega
  rw [variantBody, List.cons_append, List.append_assoc] at hs
  have hone : (d.advance 1 0).At (tag ++ (wire w ++ s)) := hs.advance_one 0
  have htwo := hone.advance 0
  have hbyte := Decoder.byte_eq_ok_iff.mpr ⟨⟨_, hs⟩, rfl⟩
  have hbytes :
      (d.advance 1 0).bytes tag.length = .ok (tag, (d.advance 1 0).advance tag.length 0) :=
    Decoder.bytes_eq_ok_iff.mpr ⟨rfl, by simp; omega, ⟨_, hone⟩, rfl⟩
  have hw := hitem (((d.advance 1 0).advance tag.length 0).push (.variant tag)) w _
    (by simp [hd]) (by simp; omega)
    ⟨⟨s, htwo⟩, rfl, by simpa using hfit, hsig, by simpa using hbud⟩
  unfold Decoder.variant
  rw [hbyte, ok_bind]
  simp only
  rw [if_neg (by simp [hlo, hhi]), hlen, hbytes, ok_bind]
  rw [hw, ok_bind]
  simp only [Decoder.pop_push_advance, Decoder.advance_advance]
  congr 3 <;> omega

/-! ### The match on the marker, read forwards -/

/-- The outcome of an arm: the value's bytes begin with the marker, and the rest was read. -/
def ArmReads (d : Decoder) (marker : UInt8) (v : Value) (d' : Decoder) : Prop :=
  ∃ body, wire v = marker :: body ∧ Reads d v body (v.size - 1) d'

theorem armReads_scalar (hat : ∃ s, d.At s) (hval : d.values ≤ d.limit) (hwire : wire v = [marker])
    (hsize : v.size = 1) (hfit : Fits d.path.length v) (hsig : Signable v) :
    ArmReads d marker v d := by
  refine ⟨[], hwire, ⟨hat, ?_, hfit, fun _ => hsig, ?_⟩⟩
  · rw [hsize]
    rfl
  · rw [hsize]
    exact hval

theorem armReads_array (hitem : ItemSound item (depth + 1)) (hd : d.path.length = depth)
    (hdepth : depth ≤ maxDepth) (hat : d.At (header ++ s)) (hn : n ≠ 0) (hmax : n ≤ u32Max)
    (hsig : d.signable = true → ¬ (16 ≤ n ∧ n ≤ 31)) (hwire : arrayHeader n = marker :: header)
    (h : (d.advance header.length 0).array item n = .ok (v, d')) : ArmReads d marker v d' := by
  obtain ⟨vs, rfl, rfl, ⟨⟨t, ht⟩, rfl, hfit, hs, hbud⟩⟩ :=
    array_sound hitem (by simpa using hd) hdepth ⟨s, hat.advance 0⟩ hn hmax hsig h
  refine ⟨header ++ wires vs, ?_, ⟨⟨t, hat.join ht⟩, ?_, hfit, hs, ?_⟩⟩
  · rw [wire, hwire, List.cons_append]
  · rw [Decoder.advance_advance, List.length_append, Value.size]
    congr 1
    omega
  · rw [Value.size, Nat.add_sub_cancel_left]
    simpa using hbud

/-- A length header of `w` bytes, and what `f` finds behind it. -/
theorem above_sound {which : String} {f : Decoder → Nat → Except Error (Value × Decoder)} (h : (do
      let (length, d) ← d.above w shorter which
      f d length) = .ok (v, d')) : ∃ n t, shorter < n ∧ n < 256 ^ w ∧ d.At (toBE w n ++ t) ∧
      f (d.advance (toBE w n).length 0) n = .ok (v, d') := by
  obtain ⟨⟨n, d₁⟩, hn, h⟩ := bind_eq_ok.mp h
  obtain ⟨hmin, hlt, -, ⟨t, ht⟩, rfl⟩ := Decoder.above_eq_ok_iff.mp hn
  refine ⟨n, t, hmin, hlt, ht, ?_⟩
  rwa [toBE_length]

section

variable (hdepth : d.path.length ≤ maxDepth) (hval : d.values ≤ d.limit)

include hdepth hval

theorem armReads_unsigned (hw : 256 ^ w ≤ 2 ^ 64)
    (hwire : ∀ n : UInt64, shorter < n.toNat → n.toNat < 256 ^ w →
      unsignedBytes n = marker :: toBE w n.toNat) (h : d.unsignedAbove w shorter = .ok (v, d')) :
    ArmReads d marker v d' := by
  obtain ⟨n, rfl, hlo, hhi, -, hat, rfl⟩ := (Decoder.unsignedAbove_eq_ok_iff hw).mp h
  refine ⟨toBE w n.toNat, hwire n hlo hhi, ⟨hat, ?_, hdepth, fun _ => trivial, hval⟩⟩
  rw [toBE_length]
  rfl

theorem armReads_negative {shorter : Int} (hw : 256 ^ w ≤ 2 ^ 64) (hs : shorter ≤ 0)
    (hwire : ∀ n : Int64, n.toInt < shorter → -(256 ^ w : Nat) ≤ 2 * n.toInt →
      negativeBytes n = marker :: signedToBE w n.toInt)
    (h : d.signedBelow w shorter = .ok (v, d')) :
    ArmReads d marker v d' := by
  obtain ⟨n, rfl, hhi, hlo, -, hat, rfl⟩ := (Decoder.signedBelow_eq_ok_iff hw hs).mp h
  refine ⟨signedToBE w n.toInt, hwire n hhi hlo,
    ⟨hat, ?_, ⟨hdepth, by omega⟩, fun _ => trivial, hval⟩⟩
  rw [signedToBE_length]
  rfl

theorem armReads_binary (hat : d.At (header ++ s)) (hmax : n ≤ u32Max)
    (hwire : binaryHeader n = marker :: header)
    (h : (d.advance header.length 0).binary n = .ok (v, d')) : ArmReads d marker v d' := by
  obtain ⟨bs, rfl, rfl, -, ⟨t, ht⟩, rfl⟩ := Decoder.payload_eq_ok_iff.mp h
  refine ⟨header ++ bs, ?_, ⟨⟨t, hat.join ht⟩, ?_, ⟨hdepth, hmax⟩, fun _ => trivial, hval⟩⟩
  · rw [wire, hwire, List.cons_append]
  · rw [Decoder.advance_advance, List.length_append]
    rfl

theorem armReads_text (hat : d.At (header ++ s)) (hmax : n ≤ u32Max)
    (hwire : textHeader n = marker :: header)
    (h : (d.advance header.length 0).text n = .ok (v, d')) : ArmReads d marker v d' := by
  obtain ⟨bs, rfl, rfl, -, ⟨t, ht⟩, rfl⟩ := Decoder.payload_eq_ok_iff.mp h
  refine ⟨header ++ bs, ?_, ⟨⟨t, hat.join ht⟩, ?_, ⟨hdepth, hmax⟩, fun _ => trivial, hval⟩⟩
  · rw [wire, hwire, List.cons_append]
  · rw [Decoder.advance_advance, List.length_append]
    rfl

theorem binaryForm_sound (hlo : 0xc4 ≤ marker) (hhi : marker ≤ 0xc6)
    (h : d.binaryForm marker = .ok (v, d')) : ArmReads d marker v d' := by
  unfold Decoder.binaryForm at h
  split_ifs at h with h8 h16
  · subst h8
    obtain ⟨⟨n, d₁⟩, hn, h⟩ := bind_eq_ok.mp h
    obtain ⟨⟨t, ht⟩, rfl⟩ := Decoder.byte_eq_ok_iff.mp hn
    have hlt := n.toNat_lt
    refine armReads_binary hdepth hval (show d.At ([n] ++ t) from ht)
      (by unfold u32Max; omega) ?_ h
    rw [binaryHeader, lenHeader, if_pos (by omega), UInt8.ofNat_toNat]
  · subst h16
    obtain ⟨n, t, hmin, hlt, ht, h⟩ := above_sound h
    refine armReads_binary hdepth hval ht (by unfold u32Max; omega) ?_ h
    rw [binaryHeader, lenHeader, if_neg (by omega), if_pos (by omega)]
  · obtain rfl : marker = 0xc6 := by grind
    obtain ⟨n, t, hmin, hlt, ht, h⟩ := above_sound h
    refine armReads_binary hdepth hval ht (by unfold u32Max; omega) ?_ h
    rw [binaryHeader, lenHeader, if_neg (by omega), if_neg (by omega)]

theorem textForm_sound (hlo : 0xd9 ≤ marker) (hhi : marker ≤ 0xdb)
    (h : d.textForm marker = .ok (v, d')) : ArmReads d marker v d' := by
  unfold Decoder.textForm at h
  split_ifs at h with h8 h16
  · subst h8
    obtain ⟨n, t, hmin, hlt, ht, h⟩ := above_sound h
    refine armReads_text hdepth hval ht (by unfold u32Max; omega) ?_ h
    rw [textHeader, if_neg (by omega), if_pos (by omega)]
    rfl
  · subst h16
    obtain ⟨n, t, hmin, hlt, ht, h⟩ := above_sound h
    refine armReads_text hdepth hval ht (by unfold u32Max; omega) ?_ h
    rw [textHeader, if_neg (by omega), if_neg (by omega), if_pos (by omega)]
  · obtain rfl : marker = 0xdb := by grind
    obtain ⟨n, t, hmin, hlt, ht, h⟩ := above_sound h
    refine armReads_text hdepth hval ht (by unfold u32Max; omega) ?_ h
    rw [textHeader, if_neg (by omega), if_neg (by omega), if_neg (by omega)]

theorem unsignedForm_sound (hlo : 0xcc ≤ marker) (hhi : marker ≤ 0xcf)
    (h : d.unsignedForm marker = .ok (v, d')) : ArmReads d marker v d' := by
  unfold Decoder.unsignedForm at h
  split_ifs at h with h8 h16 h32
  · subst h8
    refine armReads_unsigned hdepth hval (by omega) (fun n hlo hhi => ?_) h
    rw [unsignedBytes, if_neg (by omega), if_pos (by omega)]
    rfl
  · subst h16
    refine armReads_unsigned hdepth hval (by omega) (fun n hlo hhi => ?_) h
    rw [unsignedBytes, if_neg (by omega), if_neg (by omega), if_pos (by omega)]
  · subst h32
    refine armReads_unsigned hdepth hval (by omega) (fun n hlo hhi => ?_) h
    rw [unsignedBytes, if_neg (by omega), if_neg (by omega), if_neg (by omega),
      if_pos (by omega)]
  · obtain rfl : marker = 0xcf := by grind
    refine armReads_unsigned hdepth hval (by omega) (fun n hlo hhi => ?_) h
    rw [unsignedBytes, if_neg (by omega), if_neg (by omega), if_neg (by omega),
      if_neg (by omega)]

theorem signedForm_sound (hlo : 0xd0 ≤ marker) (hhi : marker ≤ 0xd3)
    (h : d.signedForm marker = .ok (v, d')) : ArmReads d marker v d' := by
  unfold Decoder.signedForm at h
  split_ifs at h with h8 h16 h32
  · subst h8
    refine armReads_negative hdepth hval (by omega) (by omega) (fun n hhi hlo => ?_) h
    rw [negativeBytes, if_neg (by omega), if_pos (by omega)]
  · subst h16
    refine armReads_negative hdepth hval (by omega) (by omega) (fun n hhi hlo => ?_) h
    rw [negativeBytes, if_neg (by omega), if_neg (by omega), if_pos (by omega)]
  · subst h32
    refine armReads_negative hdepth hval (by omega) (by omega) (fun n hhi hlo => ?_) h
    rw [negativeBytes, if_neg (by omega), if_neg (by omega), if_neg (by omega),
      if_pos (by omega)]
  · obtain rfl : marker = 0xd3 := by grind
    refine armReads_negative hdepth hval (by omega) (by omega) (fun n hhi hlo => ?_) h
    rw [negativeBytes, if_neg (by omega), if_neg (by omega), if_neg (by omega),
      if_neg (by omega)]

end

theorem arrayForm_sound (hitem : ItemSound item (depth + 1)) (hd : d.path.length = depth)
    (hdepth : depth ≤ maxDepth) (hlo : 0xdc ≤ marker) (hhi : marker ≤ 0xdd)
    (h : d.arrayForm item marker = .ok (v, d')) : ArmReads d marker v d' := by
  unfold Decoder.arrayForm at h
  split_ifs at h with h16
  · subst h16
    obtain ⟨⟨n, d₁⟩, hn, h⟩ := bind_eq_ok.mp h
    obtain ⟨hlt, -, ⟨t, ht⟩, rfl⟩ := Decoder.uint_eq_ok_iff.mp hn
    obtain ⟨h0, h⟩ := ite_error_eq_ok.mp h
    obtain ⟨hmin, h⟩ := ite_error_eq_ok.mp h
    obtain ⟨hsig, h⟩ := ite_error_eq_ok.mp h
    refine armReads_array hitem hd hdepth ht h0 (by unfold u32Max; omega)
      (fun hd hr => hsig ⟨hd, hr.2⟩) ?_ h
    rw [arrayHeader, if_neg (by omega), if_pos (by omega)]
  · obtain rfl : marker = 0xdd := by grind
    obtain ⟨n, t, hmin, hlt, ht, h⟩ := above_sound (f := fun d n => d.array item n) h
    refine armReads_array hitem hd hdepth ht (by omega) (by unfold u32Max; omega)
      (by omega) ?_ h
    rw [arrayHeader, if_neg (by omega), if_neg (by omega)]

theorem dispatch_sound (hitem : ItemSound item (depth + 1)) (hd : d.path.length = depth)
    (hdepth : depth ≤ maxDepth) (hat : ∃ s, d.At s) (hval : d.values ≤ d.limit)
    (h : d.dispatch item marker = .ok (v, d')) : ArmReads d marker v d' := by
  have hle : d.path.length ≤ maxDepth := by omega
  obtain ⟨s, hs⟩ := hat
  rcases ite_eq_ok h with ⟨hm, h⟩ | ⟨m7f, h⟩
  · cases h
    have hb : marker.toNat ≤ 0x7f := by simpa [UInt8.le_iff_toNat_le] using hm
    have hn : (UInt64.ofNat marker.toNat).toNat = marker.toNat :=
      toNat_ofNat64 (by omega)
    refine armReads_scalar ⟨s, hs⟩ hval ?_ rfl hle trivial
    rw [wire, unsignedBytes, hn, if_pos (by omega), UInt8.ofNat_toNat]
  rcases ite_eq_ok h with ⟨rfl, h⟩ | ⟨m80, h⟩
  · cases h
    exact armReads_scalar ⟨s, hs⟩ hval rfl rfl hle trivial
  rcases ite_eq_ok h with ⟨rfl, h⟩ | ⟨m81, h⟩
  · obtain ⟨tag, w, rfl, hr⟩ := variant_sound hitem hd hdepth h
    refine ⟨variantBody tag w, rfl, ?_⟩
    rwa [Value.size, Nat.add_sub_cancel_left]
  obtain ⟨m8f, h⟩ := ite_error_eq_ok.mp h
  obtain ⟨m90, h⟩ := ite_error_eq_ok.mp h
  rcases ite_eq_ok h with ⟨hm, h⟩ | ⟨m9f, h⟩
  · obtain ⟨hlo, hhi, hmk⟩ := fixarray_marker marker (by grind) hm
    refine armReads_array hitem hd hdepth (show d.At ([] ++ s) from hs) (by omega)
      (by unfold u32Max; omega) (by omega) ?_ h
    rw [arrayHeader, if_pos hhi, hmk]
  rcases ite_eq_ok h with ⟨hm, h⟩ | ⟨mbf, h⟩
  · obtain ⟨hlen, hmk⟩ := fixtext_marker marker (by grind) hm
    refine armReads_text hle hval (show d.At ([] ++ s) from hs) (by unfold u32Max; omega) ?_ h
    rw [textHeader, if_pos hlen, hmk]
  rcases ite_eq_ok h with ⟨rfl, h⟩ | ⟨mc0, h⟩
  · cases h
    exact armReads_scalar ⟨s, hs⟩ hval rfl rfl hle trivial
  obtain ⟨mc1, h⟩ := ite_error_eq_ok.mp h
  rcases ite_eq_ok h with ⟨rfl, h⟩ | ⟨mc2, h⟩
  · cases h
    exact armReads_scalar ⟨s, hs⟩ hval rfl rfl hle trivial
  rcases ite_eq_ok h with ⟨rfl, h⟩ | ⟨mc3, h⟩
  · cases h
    exact armReads_scalar ⟨s, hs⟩ hval rfl rfl hle trivial
  rcases ite_eq_ok h with ⟨hm, h⟩ | ⟨mc6, h⟩
  · exact binaryForm_sound hle hval (by grind) hm h
  obtain ⟨mc9, h⟩ := ite_error_eq_ok.mp h
  obtain ⟨mcb, h⟩ := ite_error_eq_ok.mp h
  rcases ite_eq_ok h with ⟨hm, h⟩ | ⟨mcf, h⟩
  · exact unsignedForm_sound hle hval (by grind) hm h
  rcases ite_eq_ok h with ⟨hm, h⟩ | ⟨md3, h⟩
  · exact signedForm_sound hle hval (by grind) hm h
  obtain ⟨md8, h⟩ := ite_error_eq_ok.mp h
  rcases ite_eq_ok h with ⟨hm, h⟩ | ⟨mdb, h⟩
  · exact textForm_sound hle hval (by grind) hm h
  rcases ite_eq_ok h with ⟨hm, h⟩ | ⟨mdd, h⟩
  · exact arrayForm_sound hitem hd hdepth (by grind) hm h
  obtain ⟨mdf, h⟩ := ite_error_eq_ok.mp h
  cases h
  obtain ⟨hlo, hhi⟩ := negfix_marker marker (by grind)
  have hn : (Int64.ofInt (signedOfBE [marker])).toInt = signedOfBE [marker] :=
    Int64.toInt_ofInt_of_le (by omega) (by omega)
  refine armReads_scalar ⟨s, hs⟩ hval ?_ rfl ⟨hle, by omega⟩ trivial
  rw [wire, negativeBytes, hn, if_pos hlo]
  exact signedToBE_signedOfBE [marker]

/-! ### The match on the marker, read backwards -/

/-- A length header of `w` bytes is read back by `above`, and `read` then finds its payload. -/
theorem above_complete {d : Decoder} {w shorter n k : Nat} {which : String}
    {payload s : List UInt8} {read : Decoder → Nat → Except Error (Value × Decoder)} {v : Value}
    (hmin : shorter < n) (hmax : n < 256 ^ w) (hat : d.At ((toBE w n ++ payload) ++ s))
    (hoff : d.offset + (toBE w n ++ payload).length < 2 ^ 64)
    (hread : (d.advance w 0).At (payload ++ s) →
      (d.advance w 0).offset + payload.length < 2 ^ 64 →
      read (d.advance w 0) n = .ok (v, (d.advance w 0).advance payload.length k)) :
    (do
      let (length, d) ← d.above w shorter which
      read d length) = .ok (v, d.advance (toBE w n ++ payload).length k) := by
  rw [List.append_assoc] at hat
  have hnext := hat.advance 0
  rw [List.length_append] at hoff ⊢
  rw [toBE_length] at hnext hoff ⊢
  have habove : d.above w shorter which = .ok (n, d.advance w 0) :=
    Decoder.above_eq_ok_iff.mpr ⟨hmin, hmax, by omega, ⟨_, hat⟩, rfl⟩
  rw [habove, ok_bind]
  simp only
  rw [hread hnext (by rw [Decoder.advance_offset]; omega), Decoder.advance_advance, Nat.zero_add]

theorem binary_complete (hat : d.At (bs ++ s)) (hoff : d.offset + bs.length < 2 ^ 64) :
    d.binary bs.length = .ok (.binary bs, d.advance bs.length 0) :=
  Decoder.payload_eq_ok_iff.mpr ⟨bs, rfl, rfl, hoff, ⟨s, hat⟩, rfl⟩

theorem text_complete (hat : d.At (bs ++ s)) (hoff : d.offset + bs.length < 2 ^ 64) :
    d.text bs.length = .ok (.text bs, d.advance bs.length 0) :=
  Decoder.payload_eq_ok_iff.mpr ⟨bs, rfl, rfl, hoff, ⟨s, hat⟩, rfl⟩

theorem dispatch_fixtext (h : n ≤ 31) : d.dispatch item (0xa0 ||| UInt8.ofNat n) = d.text n := by
  obtain ⟨hlo, hhi, hlen⟩ := fixtext_length h
  generalize 0xa0 ||| UInt8.ofNat n = m at hlo hhi hlen
  unfold Decoder.dispatch
  rw [if_neg (by grind), if_neg (by grind), if_neg (by grind), if_neg (by grind),
    if_neg (by grind), if_neg (by grind), if_pos hhi, hlen]

theorem dispatch_fixarray (h : n ≤ 15) (h0 : n ≠ 0) :
    d.dispatch item (0x90 ||| UInt8.ofNat n) = d.array item n := by
  obtain ⟨hlo, hhi, hlen⟩ := fixarray_length h h0
  generalize 0x90 ||| UInt8.ofNat n = m at hlo hhi hlen
  unfold Decoder.dispatch
  rw [if_neg (by grind), if_neg (by grind), if_neg (by grind), if_neg (by grind),
    if_neg (by grind), if_pos hhi, hlen]

theorem dispatch_unsigned {n : UInt64} (hwire : unsignedBytes n = marker :: body)
    (hat : d.At (body ++ s)) (hoff : d.offset + body.length < 2 ^ 64) :
    d.dispatch item marker = .ok (.unsigned n, d.advance body.length 0) := by
  -- the four wide forms differ in their width only
  have hwide {w shorter : Nat} (hw : 256 ^ w ≤ 2 ^ 64) (hlo : shorter < n.toNat)
      (hhi : n.toNat < 256 ^ w) (hbody : toBE w n.toNat = body) :
      d.unsignedAbove w shorter = .ok (.unsigned n, d.advance body.length 0) := by
    subst hbody
    rw [toBE_length] at hoff ⊢
    exact (Decoder.unsignedAbove_eq_ok_iff hw).mpr ⟨n, rfl, hlo, hhi, hoff, ⟨s, hat⟩, rfl⟩
  have hn := n.toNat_lt
  unfold unsignedBytes at hwire
  split_ifs at hwire with h7 h8 h16 h32 <;> obtain ⟨rfl, hbody⟩ := List.cons_eq_cons.mp hwire
  · subst hbody
    have hm : UInt8.ofNat n.toNat ≤ 0x7f := by
      rw [UInt8.le_iff_toNat_le, UInt8.toNat_ofNat']
      simp
      omega
    have hback : (UInt8.ofNat n.toNat).toNat = n.toNat := UInt8.toNat_ofNat_of_lt' (by
      unfold UInt8.size
      omega)
    unfold Decoder.dispatch
    rw [if_pos hm, hback, UInt64.ofNat_toNat]
    rfl
  · exact @hwide 1 0x7f (by omega) (by omega) (by omega) hbody
  · exact @hwide 2 0xff (by omega) (by omega) (by omega) hbody
  · exact @hwide 4 0xffff (by omega) (by omega) (by omega) hbody
  · exact @hwide 8 0xffffffff (by omega) (by omega) (by omega) hbody

theorem dispatch_negative {n : Int64} (hneg : n.toInt < 0)
    (hwire : negativeBytes n = marker :: body) (hat : d.At (body ++ s))
    (hoff : d.offset + body.length < 2 ^ 64) :
    d.dispatch item marker = .ok (.negative n, d.advance body.length 0) := by
  have hwide {w : Nat} {shorter : Int} (hw : 256 ^ w ≤ 2 ^ 64) (hs : shorter ≤ 0)
      (hhi : n.toInt < shorter) (hlo : -(256 ^ w : Nat) ≤ 2 * n.toInt)
      (hbody : signedToBE w n.toInt = body) :
      d.signedBelow w shorter = .ok (.negative n, d.advance body.length 0) := by
    subst hbody
    rw [signedToBE_length] at hoff ⊢
    exact (Decoder.signedBelow_eq_ok_iff hw hs).mpr ⟨n, rfl, hhi, hlo, hoff, ⟨s, hat⟩, rfl⟩
  have hmin := n.le_toInt
  unfold negativeBytes at hwire
  split_ifs at hwire with h5 h8 h16 h32
  · have hback := signedOfBE_signedToBE 1 n.toInt (by omega) (by omega)
    have hlen := signedToBE_length 1 n.toInt
    rw [hwire] at hback hlen
    obtain rfl : body = [] := List.length_eq_zero_iff.mp (by simpa using hlen)
    have hm : 0xe0 ≤ marker := negfix_marker_ge marker (by omega) (by omega)
    unfold Decoder.dispatch
    iterate 20 rw [if_neg (by grind)]
    rw [hback, Int64.ofInt_toInt]
    rfl
  all_goals obtain ⟨rfl, hbody⟩ := List.cons_eq_cons.mp hwire
  · exact @hwide 1 (-32) (by omega) (by omega) (by omega) (by omega) hbody
  · exact @hwide 2 (-128) (by omega) (by omega) (by omega) (by omega) hbody
  · exact @hwide 4 (-32768) (by omega) (by omega) (by omega) (by omega) hbody
  · exact @hwide 8 (-2147483648) (by omega) (by omega) (by omega) (by omega) hbody

theorem dispatch_binary (hmax : bs.length ≤ u32Max) (hwire : wire (.binary bs) = marker :: body)
    (hat : d.At (body ++ s)) (hoff : d.offset + body.length < 2 ^ 64) :
    d.dispatch item marker = .ok (.binary bs, d.advance body.length 0) := by
  unfold u32Max at hmax
  rw [wire, binaryHeader, lenHeader] at hwire
  split_ifs at hwire with h8 h16 <;> obtain ⟨rfl, rfl⟩ := List.cons_eq_cons.mp hwire
  · have hbyte := Decoder.byte_eq_ok_iff.mpr ⟨⟨_, hat⟩, rfl⟩
    have hnext : (d.advance 1 0).At (bs ++ s) := Decoder.At.advance_one hat 0
    have hlen : (UInt8.ofNat bs.length).toNat = bs.length := UInt8.toNat_ofNat_of_lt' (by
      unfold UInt8.size
      omega)
    change d.offset + (UInt8.ofNat bs.length :: bs).length < 2 ^ 64 at hoff
    change d.binaryForm 0xc4 = .ok (_, d.advance (UInt8.ofNat bs.length :: bs).length 0)
    rw [List.length_cons] at hoff ⊢
    rw [Decoder.binaryForm, if_pos rfl, hbyte, ok_bind]
    simp only
    rw [hlen, binary_complete hnext (by rw [Decoder.advance_offset]; omega),
      Decoder.advance_advance, Nat.add_comm 1]
  · exact above_complete (by omega) (by omega) hat hoff binary_complete
  · exact above_complete (by omega) (by omega) hat hoff binary_complete

theorem dispatch_text (hmax : bs.length ≤ u32Max) (hwire : wire (.text bs) = marker :: body)
    (hat : d.At (body ++ s)) (hoff : d.offset + body.length < 2 ^ 64) :
    d.dispatch item marker = .ok (.text bs, d.advance body.length 0) := by
  unfold u32Max at hmax
  rw [wire, textHeader] at hwire
  split_ifs at hwire with h5 h8 h16 <;> obtain ⟨rfl, rfl⟩ := List.cons_eq_cons.mp hwire
  · rw [dispatch_fixtext h5]
    exact text_complete hat hoff
  · exact @above_complete d 1 31 bs.length 0 "text" bs s _ _ (by omega) (by omega) hat hoff
      text_complete
  · exact above_complete (by omega) (by omega) hat hoff text_complete
  · exact above_complete (by omega) (by omega) hat hoff text_complete

theorem dispatch_array (hitem : ItemComplete item (depth + 1)) {vs : List Value}
    (hd : d.path.length = depth) (hwire : wire (.array vs) = marker :: body)
    (hoff : d.offset + body.length < 2 ^ 64) (h : Reads d (.array vs) body (Value.sizes vs) d') :
    d.dispatch item marker = .ok (.array vs, d') := by
  obtain ⟨⟨s, hat⟩, rfl, ⟨hdepth, hne, hmax, hfits⟩, hsig, hbud⟩ := h
  have hpos : vs.length ≠ 0 := fun h => hne (List.length_eq_zero_iff.mp h)
  unfold u32Max at hmax
  -- behind the header the elements are read
  have hread (k : Nat) (hat : (d.advance k 0).At (wires vs ++ s))
      (hoff : (d.advance k 0).offset + (wires vs).length < 2 ^ 64) :
      (d.advance k 0).array item vs.length =
        .ok (.array vs, (d.advance k 0).advance (wires vs).length (Value.sizes vs)) :=
    array_complete hitem (by simpa using hd) hoff
      ⟨⟨s, hat⟩, rfl, ⟨hdepth, hne, hmax, hfits⟩, hsig, hbud⟩
  rw [wire, arrayHeader] at hwire
  split_ifs at hwire with h4 h16 <;> obtain ⟨rfl, rfl⟩ := List.cons_eq_cons.mp hwire
  · rw [dispatch_fixarray h4 hpos]
    exact hread 0 hat hoff
  · change d.At ((toBE 2 vs.length ++ wires vs) ++ s) at hat
    change d.offset + (toBE 2 vs.length ++ wires vs).length < 2 ^ 64 at hoff
    change d.arrayForm item 0xdc = .ok (_, d.advance (toBE 2 vs.length ++ wires vs).length _)
    rw [List.append_assoc] at hat
    have hnext := hat.advance 0
    rw [List.length_append] at hoff ⊢
    rw [toBE_length] at hnext hoff ⊢
    have huint : d.uint 2 = .ok (vs.length, d.advance 2 0) :=
      Decoder.uint_eq_ok_iff.mpr ⟨by omega, by omega, ⟨_, hat⟩, rfl⟩
    have hsign : ¬ ((d.advance 2 0).signable = true ∧ vs.length ≤ 0x1f) :=
      fun hs => (hsig hs.1).1 ⟨by omega, hs.2⟩
    rw [Decoder.arrayForm, if_pos rfl, huint, ok_bind]
    simp only
    rw [if_neg hpos, if_neg (by omega), if_neg hsign,
      hread 2 hnext (by rw [Decoder.advance_offset]; omega), Decoder.advance_advance, Nat.zero_add]
  · exact @above_complete d 4 65535 vs.length (Value.sizes vs) "array" (wires vs) s
      (fun d n => d.array item n) _ (by omega) (by omega) hat hoff (hread 4)

theorem dispatch_complete (hitem : ItemComplete item (depth + 1)) (hd : d.path.length = depth)
    (hwire : wire v = marker :: body) (hoff : d.offset + body.length < 2 ^ 64)
    (h : Reads d v body (v.size - 1) d') : d.dispatch item marker = .ok (v, d') := by
  obtain ⟨⟨s, hat⟩, hnext, hfit, hsig, hbud⟩ := h
  cases v with
  | null =>
    cases hwire
    subst hnext
    rfl
  | bool b =>
    cases b <;> cases hwire <;> subst hnext <;> rfl
  | unsigned n =>
    subst hnext
    exact dispatch_unsigned hwire hat hoff
  | negative n =>
    subst hnext
    exact dispatch_negative hfit.2 hwire hat hoff
  | binary bs =>
    subst hnext
    exact dispatch_binary hfit.2 hwire hat hoff
  | text bs =>
    subst hnext
    exact dispatch_text hfit.2 hwire hat hoff
  | array vs =>
    rw [Value.size, Nat.add_sub_cancel_left] at hnext hbud
    exact dispatch_array hitem hd hwire hoff ⟨⟨s, hat⟩, hnext, hfit, hsig, hbud⟩
  | variantNone =>
    cases hwire
    subst hnext
    rfl
  | variant tag w =>
    obtain ⟨rfl, rfl⟩ := List.cons_eq_cons.mp hwire
    rw [Value.size, Nat.add_sub_cancel_left] at hnext hbud
    exact variant_complete hitem hd hoff ⟨⟨s, hat⟩, hnext, hfit, hsig, hbud⟩

end

end Foks.Snowpack
