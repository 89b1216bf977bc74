/-
  Canonicity of the Snowpack codec.

  The inductions over the levels of the decoder (`value_sound`, `value_complete`) say exactly
  what it accepts: the canonical bytes of a value within the depth, length and count limits.
  Hence the codec law: what `decode` accepts re-encodes to the same bytes, and what `encode`
  writes decodes to the same value, under any suffix.
-/
import Foks.Snowpack.Reads

namespace Foks.Snowpack

open Foks.Lib

/-! ## Whole runs -/

theorem Decoder.enter_eq_ok_iff {d d' : Decoder} :
    d.enter = .ok d' ↔ d.values + 1 ≤ d.limit ∧ d.path.length ≤ maxDepth ∧ d' = d.advance 0 1 := by
  unfold Decoder.enter
  simp only
  rw [ite_error_eq_ok, ite_error_eq_ok, Except.ok.injEq, Nat.not_lt, Nat.not_lt]
  exact ⟨fun ⟨hv, hp, h⟩ => ⟨hv, hp, h.symm⟩, fun ⟨hv, hp, h⟩ => ⟨hv, hp, h.symm⟩⟩

theorem value_sound (levels depth : Nat) (hl : depth + levels = maxDepth + 1) :
    ItemSound (Decoder.value levels) depth := by
  induction levels generalizing depth with
  | zero =>
    intro d v d' hd h
    obtain ⟨d₁, -, h⟩ := bind_eq_ok.mp h
    cases h
  | succ levels ih =>
    intro d v d' hd h
    obtain ⟨d₁, hd₁, h⟩ := bind_eq_ok.mp h
    obtain ⟨hval, hdepth, rfl⟩ := Decoder.enter_eq_ok_iff.mp hd₁
    obtain ⟨⟨marker, d₂⟩, hm, h⟩ := bind_eq_ok.mp h
    obtain ⟨⟨s, hs⟩, rfl⟩ := Decoder.byte_eq_ok_iff.mp hm
    have hone := hs.advance_one 0
    obtain ⟨body, hwire, ⟨⟨t, ht⟩, rfl, hfit, hsig, hbud⟩⟩ :=
      dispatch_sound (ih (depth + 1) (by omega)) (by simpa using hd) (by omega) ⟨s, hone⟩
        (by simpa using hval) h
    have hst : s = body ++ t := hone.2.symm.trans ht.2
    have hsize := v.size_pos
    refine ⟨⟨t, ?_⟩, ?_, hfit, hsig, ?_⟩
    · rw [hwire, List.cons_append, ← hst]
      exact hs
    · rw [Decoder.advance_advance, Decoder.advance_advance, hwire, List.length_cons]
      congr 1 <;> omega
    · simp only [Decoder.advance_values, Decoder.advance_limit] at hbud
      omega

theorem value_complete (levels depth : Nat) (hl : depth + levels = maxDepth + 1) :
    ItemComplete (Decoder.value levels) depth := by
  induction levels generalizing depth with
  | zero =>
    intro d v d' hd _ h
    have := h.fits.depth_le
    omega
  | succ levels ih =>
    intro d v d' hd hoff h
    obtain ⟨⟨s, hs⟩, rfl, hfit, hsig, hbud⟩ := h
    have hsize := v.size_pos
    have hdepth := hfit.depth_le
    obtain ⟨marker, body, hwire⟩ := List.exists_cons_of_length_pos (wire_length_pos v)
    rw [hwire, List.length_cons] at hoff
    rw [hwire, List.cons_append] at hs
    have hin : (d.advance 0 1).At (marker :: (body ++ s)) := hs.advance_nil 1
    have hone := hin.advance_one 0
    have hrest := dispatch_complete (ih (depth + 1) (by omega)) (by simpa using hd) hwire
      (by simp only [Decoder.advance_offset]; omega)
      ⟨⟨s, hone⟩, rfl, hfit, hsig, by
        simp only [Decoder.advance_values, Decoder.advance_limit]; omega⟩
    rw [Decoder.value, Decoder.enter_eq_ok_iff.mpr ⟨by omega, by omega, rfl⟩, ok_bind,
      Decoder.byte_eq_ok_iff.mpr ⟨⟨_, hin⟩, rfl⟩, ok_bind]
    simp only
    rw [hrest, Decoder.advance_advance, Decoder.advance_advance, hwire, List.length_cons]
    congr 3 <;> omega

/-! ## Lengths -/

variable {bs : List UInt8} {v : Value}

theorem encode_length_lt (h : encode v = .ok bs) : bs.length < 2 ^ 64 := by
  obtain ⟨-, rfl⟩ := encode_eq_ok h
  obtain ⟨c, hc, -⟩ := bind_eq_ok.mp h
  obtain ⟨rfl, hlt⟩ := ownedCapacity_eq_ok v 0 c hc
  exact (wire_length_le_demand v).trans_lt hlt

/-! ## The codec -/

/-- What a value needs to pass the codec in both directions. -/
structure Codable (v : Value) : Prop where
  fits : Fits 0 v
  size_le : v.size ≤ maximumDecodedValues

mutual

/-- Whether a value fits can be decided by walking over it. -/
def Fits.decide (depth : Nat) : (v : Value) → Decidable (Fits depth v)
  | .null | .bool _ | .unsigned _ | .variantNone => inferInstanceAs (Decidable (depth ≤ maxDepth))
  | .negative n => inferInstanceAs (Decidable (depth ≤ maxDepth ∧ n.toInt < 0))
  | .binary bytes | .text bytes =>
    inferInstanceAs (Decidable (depth ≤ maxDepth ∧ bytes.length ≤ u32Max))
  | .array values =>
    have := FitsAll.decide (depth + 1) values
    inferInstanceAs (Decidable (depth ≤ maxDepth ∧ values ≠ [] ∧ values.length ≤ u32Max ∧
      FitsAll (depth + 1) values))
  | .variant tag value =>
    have := Fits.decide (depth + 1) value
    inferInstanceAs (Decidable (depth ≤ maxDepth ∧ tag.length ≤ 31 ∧ Fits (depth + 1) value))

def FitsAll.decide (depth : Nat) : (vs : List Value) → Decidable (FitsAll depth vs)
  | [] => inferInstanceAs (Decidable True)
  | v :: vs =>
    have := Fits.decide depth v
    have := FitsAll.decide depth vs
    inferInstanceAs (Decidable (Fits depth v ∧ FitsAll depth vs))

end

instance (depth : Nat) (v : Value) : Decidable (Fits depth v) := Fits.decide depth v

instance (v : Value) : Decidable (Codable v) :=
  decidable_of_iff (Fits 0 v ∧ v.size ≤ maximumDecodedValues)
    ⟨fun h => ⟨h.1, h.2⟩, fun h => ⟨h.fits, h.size_le⟩⟩

theorem Codable.encode_eq (h : Codable v) : encode v = .ok (wire v) := by
  have hsize := h.size_le
  unfold maximumDecodedValues at hsize
  exact encode_of_fits h.fits (by omega)

theorem Codable.of_mem {vs : List Value} (h : Codable (.array vs)) (hv : v ∈ vs) : Codable v := by
  refine ⟨((fitsAll_iff _ _).mp h.fits.2.2.2 v hv).mono (by omega), ?_⟩
  have hle := Value.size_le_sizes hv
  have hsize := h.size_le
  rw [Value.size] at hsize
  omega

/-- Reading one value off the front of the input, under the given value budget. -/
theorem value_new_eq_ok_iff {input : List UInt8} {signable : Bool} {limit : Nat} {v : Value}
    {d : Decoder} (hlen : (wire v).length < 2 ^ 64) :
    Decoder.value (maxDepth + 1) ⟨input, 0, [], 0, limit, signable⟩ = .ok (v, d) ↔
      Fits 0 v ∧ v.size ≤ limit ∧ (signable = true → Signable v) ∧
        (∃ s, input = wire v ++ s) ∧
        d = (⟨input, 0, [], 0, limit, signable⟩ : Decoder).advance (wire v).length v.size := by
  constructor
  · intro h
    obtain ⟨⟨s, hs⟩, hnext, hfit, hsig, hbud⟩ := value_sound (maxDepth + 1) 0 (by omega) _ _ _ rfl h
    exact ⟨hfit, by simpa using hbud, hsig, ⟨s, hs.2⟩, hnext⟩
  · rintro ⟨hfit, hsize, hsig, ⟨s, rfl⟩, rfl⟩
    refine value_complete (maxDepth + 1) 0 (by omega) _ _ _ rfl (by simpa using hlen) ?_
    exact ⟨⟨s, by simp [Decoder.At]⟩, rfl, hfit, hsig, by simpa using hsize⟩

theorem decodePrefix_eq_ok {input : List UInt8} {n : Nat} (h : decodePrefix input = .ok (v, n)) :
    Codable v ∧ n = (wire v).length ∧ ∃ s, input = wire v ++ s := by
  obtain ⟨⟨w, d⟩, hd, h⟩ := bind_eq_ok.mp h
  cases h
  obtain ⟨⟨s, hs⟩, rfl, hfit, -, hbud⟩ := value_sound (maxDepth + 1) 0 (by omega) _ _ _ rfl hd
  exact ⟨⟨hfit, by simpa [Decoder.new] using hbud⟩, by simp [Decoder.new], s, hs.2⟩

theorem decodePrefix_wire (h : Codable v) (s : List UInt8) :
    decodePrefix (wire v ++ s) = .ok (v, (wire v).length) := by
  have hlen := encode_length_lt h.encode_eq
  have hrun := (@value_new_eq_ok_iff (wire v ++ s) false _ v _ hlen).mpr
    ⟨h.fits, h.size_le, by simp, ⟨s, rfl⟩, rfl⟩
  rw [decodePrefix, Decoder.new, hrun, ok_bind]
  simp

theorem decode_eq_ok_iff : decode bs = .ok v ↔ Codable v ∧ bs = wire v := by
  unfold decode
  rw [bind_eq_ok]
  constructor
  · rintro ⟨⟨w, n⟩, hw, h⟩
    obtain ⟨hn, h⟩ := ite_error_eq_ok.mp h
    cases h
    obtain ⟨hcod, rfl, s, rfl⟩ := decodePrefix_eq_ok hw
    have hs : s = [] := by simpa using not_not.mp hn
    exact ⟨hcod, by rw [hs, List.append_nil]⟩
  · rintro ⟨hcod, rfl⟩
    have h := decodePrefix_wire hcod []
    rw [List.append_nil] at h
    exact ⟨_, h, by simp⟩

/-- The stricter decoder accepts exactly the canonical bytes of a signable value. -/
theorem validateSignable_eq_ok_iff :
    validateSignable bs = .ok () ↔ ∃ v, Codable v ∧ Signable v ∧ bs = wire v := by
  unfold validateSignable
  rw [bind_eq_ok]
  constructor
  · rintro ⟨⟨v, d⟩, hd, h⟩
    obtain ⟨hn, -⟩ := ite_error_eq_ok.mp h
    obtain ⟨⟨s, hs⟩, rfl, hfit, hsig, hbud⟩ := value_sound (maxDepth + 1) 0 (by omega) _ _ _ rfl hd
    have hbs : bs = wire v ++ s := hs.2
    have hnil : s = [] := by
      subst hbs
      simpa [Decoder.new] using not_not.mp hn
    exact ⟨v, ⟨hfit, by simpa [Decoder.new] using hbud⟩,
      hsig rfl, by rw [hbs, hnil, List.append_nil]⟩
  · rintro ⟨v, hcod, hsig, rfl⟩
    have hlen := encode_length_lt hcod.encode_eq
    have hrun := (@value_new_eq_ok_iff (wire v) true _ v _ hlen).mpr
      ⟨hcod.fits, hcod.size_le, fun _ => hsig, ⟨[], by simp⟩, rfl⟩
    exact ⟨_, hrun, by simp⟩

/-- A value occurs in another one: it is the other one, or occurs in an element or in what a
    variant carries. -/
inductive OccursIn (v : Value) : Value → Prop
  | self : OccursIn v v
  | element {w : Value} {values : List Value} :
      w ∈ values → OccursIn v w → OccursIn v (.array values)
  | payload {w : Value} {tag : List UInt8} : OccursIn v w → OccursIn v (.variant tag w)

theorem signableAll_iff (vs : List Value) : SignableAll vs ↔ ∀ v ∈ vs, Signable v := by
  induction vs with
  | nil => simp [SignableAll]
  | cons v vs ih => simp [SignableAll, ih]

theorem signable_iff (v : Value) :
    Signable v ↔
      ∀ values, OccursIn (.array values) v → ¬ (16 ≤ values.length ∧ values.length ≤ 31) := by
  constructor
  · intro h values hin
    induction hin with
    | self => exact h.1
    | element hw _ ih => exact ih ((signableAll_iff _).mp h.2 _ hw)
    | payload _ ih => exact ih h
  · intro h
    induction v with
    | array vs ih =>
      refine ⟨h vs .self, (signableAll_iff vs).mpr fun w hw => ?_⟩
      exact ih w hw fun values hin => h values (.element hw hin)
    | variant tag w ih => exact ih fun values hin => h values (.payload hin)
    | _ => trivial

/-- Validation accepts what decodes, except where an array of 16 to 31 elements occurs. -/
theorem validateSignable_iff_decode (bs : List UInt8) :
    validateSignable bs = .ok () ↔ ∃ v, decode bs = .ok v ∧
      ∀ values, OccursIn (.array values) v → ¬ (16 ≤ values.length ∧ values.length ≤ 31) := by
  rw [validateSignable_eq_ok_iff]
  refine exists_congr fun v => ?_
  rw [decode_eq_ok_iff, ← signable_iff v]
  constructor
  · rintro ⟨hcod, hsig, hbs⟩
    exact ⟨⟨hcod, hbs⟩, hsig⟩
  · rintro ⟨⟨hcod, hbs⟩, hsig⟩
    exact ⟨hcod, hsig, hbs⟩

/-- Two values never share an encoding. -/
theorem encode_inj {w : Value} (hv : encode v = .ok bs) (hw : encode w = .ok bs) : v = w := by
  have hlen := encode_length_lt hv
  obtain ⟨hfit, rfl⟩ := encode_eq_ok hv
  obtain ⟨hfit', hwire⟩ := encode_eq_ok hw
  -- both are read back by a decoder whose budget covers the two of them
  have hrun := (@value_new_eq_ok_iff (wire v) false (max v.size w.size) v _ hlen).mpr
    ⟨hfit, by omega, by simp, ⟨[], by simp⟩, rfl⟩
  have hrun' := (@value_new_eq_ok_iff (wire v) false (max v.size w.size) w _
    (by rwa [← hwire])).mpr ⟨hfit', by omega, by simp, ⟨[], by simpa using hwire⟩, rfl⟩
  rw [hrun] at hrun'
  cases hrun'
  rfl

/-- The codec law: `decode` inverts `encode` on every value within the value limit, whatever
    follows it, and accepts no other bytes for it. -/
theorem codec_canonical :
    (∀ (bs : List UInt8) (v : Value), decode bs = .ok v → encode v = .ok bs) ∧
    (∀ (bs bs' : List UInt8) (v : Value), decode bs = .ok v → decode bs' = .ok v → bs = bs') ∧
    (∀ (v : Value) (bs : List UInt8), encode v = .ok bs → v.size ≤ maximumDecodedValues →
      decode bs = .ok v ∧ ∀ s, decodePrefix (bs ++ s) = .ok (v, bs.length)) := by
  refine ⟨fun bs v h => ?_, fun bs bs' v h h' => ?_, fun v bs h hsize => ?_⟩
  · obtain ⟨hcod, rfl⟩ := decode_eq_ok_iff.mp h
    exact hcod.encode_eq
  · exact (decode_eq_ok_iff.mp h).2.trans (decode_eq_ok_iff.mp h').2.symm
  · obtain ⟨hfit, rfl⟩ := encode_eq_ok h
    have hcod : Codable v := ⟨hfit, hsize⟩
    exact ⟨decode_eq_ok_iff.mpr ⟨hcod, rfl⟩, decodePrefix_wire hcod⟩

/-- A nested value with every kind of length header, through both directions. -/
theorem codec_canonical_nested :
    let v := Value.array [.unsigned 300, .negative (-40), .variant [0x61] (.binary [1, 2]), .null]
    decode (wire v) = .ok v ∧ encode v = .ok (wire v) ∧
      ∀ s, decodePrefix (wire v ++ s) = .ok (v, (wire v).length) := by
  intro v
  have henc : encode v = .ok (wire v) := rfl
  have hdec := codec_canonical.2.2 v (wire v) henc (by decide)
  exact ⟨hdec.1, codec_canonical.1 _ v hdec.1, hdec.2⟩

end Foks.Snowpack
