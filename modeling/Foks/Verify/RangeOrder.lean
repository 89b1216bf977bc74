/-
  The order of index ranges.

  A bound of a range stands for a number, or for infinity (`bound`). The comparison of bounds by
  their significant digits is the comparison of these numbers, however they are written
  (`compareRationals_exact_order`). Inclusion of ranges and "strictly before" are then statements
  about the numbers at their ends, and keep what they say while a team's range and its members'
  ranges shrink (`teamReplay_ranges_nested`).
-/
import Foks.Verify.TeamForwardSecrecy

namespace Foks.Verify

open Std (ExtTreeMap)
open Foks.Lib Foks.Crypto Foks.Proto

/-! ## Bounds as numbers -/

/-- The number that a bound stands for. -/
def finiteBound (value : Rational) : ℚ := ofBE value.base * 256 ^ value.exponent.toInt

def bound (value : Rational) : WithTop ℚ := if value.infinity then ⊤ else finiteBound value

theorem finiteBound_eq_fraction (value : Rational) :
    finiteBound value = fraction value.base * 256 ^ (value.base.length + value.exponent.toInt) := by
  rw [finiteBound, ← fraction_mul_pow, mul_assoc, zpow_add₀ (by norm_num), zpow_natCast]

/-- The number in terms of the significant digits, or nothing but zeros. -/
theorem significant_spec (value : Rational) :
    (significant value = ([], 0) ∧ finiteBound value = 0) ∨
    ∃ digit core low, significant value = (digit :: core, low) ∧ digit ≠ 0 ∧
      finiteBound value = fraction (digit :: core) * 256 ^ (low + (digit :: core).length) := by
  have hmove := fraction_dropWhile value.base
  by_cases hnil : value.base.dropWhile (· == 0) = []
  · left
    have hzero : fraction value.base = 0 := by
      rw [hnil, fraction, zero_mul] at hmove
      exact (mul_eq_zero.mp hmove.symm).resolve_right (by positivity)
    refine ⟨by simp [significant, hnil], ?_⟩
    rw [finiteBound_eq_fraction, hzero, zero_mul]
  · right
    obtain ⟨digit, core, hdigit, hsplit⟩ := dropWhile_zeros_split hnil
    have hsignificant : significant value = (digit :: core,
        value.exponent.toInt + (value.base.reverse.takeWhile (· == 0)).length) := by
      have hlength (n : Nat) : (digit :: core ++ List.replicate n 0).length - n =
          (digit :: core).length := by simp; omega
      simp only [significant, hsplit, hlength, List.take_left]
      rfl
    refine ⟨digit, core, _, hsignificant, hdigit, ?_⟩
    rw [hsplit, fraction_append_zeros, List.length_append, List.length_replicate] at hmove
    rw [finiteBound, ← fraction_mul_pow, ← hmove, mul_assoc, ← zpow_natCast,
      ← zpow_add₀ (by norm_num)]
    congr 2
    push_cast
    ring

theorem compareFinite_compares (left right : Rational) :
    (compareFinite left right).Compares (finiteBound left) (finiteBound right) := by
  have hpos {digit : UInt8} {core : List UInt8} (hdigit : digit ≠ 0) (exponent : ℤ) :
      0 < fraction (digit :: core) * (256 : ℚ) ^ exponent := by
    have hfraction := le_fraction core hdigit
    positivity
  unfold compareFinite
  rcases significant_spec left with ⟨hleft, hzeroL⟩ |
    ⟨digitL, coreL, lowL, hleft, hdigitL, hboundL⟩
  · rcases significant_spec right with ⟨hright, hzeroR⟩ |
      ⟨digitR, coreR, lowR, hright, hdigitR, hboundR⟩
    · rw [hleft, hright, hzeroL, hzeroR]
      exact rfl
    · rw [hleft, hright, hzeroL, hboundR]
      exact hpos hdigitR _
  · rcases significant_spec right with ⟨hright, hzeroR⟩ |
      ⟨digitR, coreR, lowR, hright, hdigitR, hboundR⟩
    · rw [hleft, hright, hzeroR, hboundL]
      exact hpos hdigitL _
    · rw [hleft, hright, hboundL, hboundR]
      show ((compare (lowL + ((digitL :: coreL).length : ℤ)) _).then
        (lexDigits (digitL :: coreL) (digitR :: coreR))).Compares _ _
      generalize lowL + ((digitL :: coreL).length : ℤ) = topL
      generalize lowR + ((digitR :: coreR).length : ℤ) = topR
      rcases lt_trichotomy topL topR with hlt | rfl | hgt
      · rw [compare_lt_iff_lt.mpr hlt]
        exact fraction_mul_pow_lt _ _ hdigitR hlt
      · rw [Std.compare_self, Ordering.eq_then]
        have hdigits := lexDigits_compares (digitL :: coreL) (digitR :: coreR)
        revert hdigits
        cases lexDigits (digitL :: coreL) (digitR :: coreR) with
        | lt => exact fun hdigits => mul_lt_mul_of_pos_right hdigits (by positivity)
        | eq => exact fun hdigits => congrArg (· * _) hdigits
        | gt => exact fun hdigits => mul_lt_mul_of_pos_right hdigits (by positivity)
      · rw [compare_gt_iff_gt.mpr hgt]
        exact fraction_mul_pow_lt _ _ hdigitL hgt

/-! ## Ranges -/

/-- What the comparison of two bounds says about their numbers. -/
theorem compareRationals_compares {left right : Rational} {o : Ordering}
    (h : compareRationals left right = .ok o) : o.Compares (bound left) (bound right) := by
  obtain ⟨_, -, h⟩ := bind_eq_ok.mp h
  obtain ⟨_, -, h⟩ := bind_eq_ok.mp h
  cases h
  unfold bound
  cases left.infinity <;> cases right.infinity
  · have hfinite := compareFinite_compares left right
    revert hfinite
    cases compareFinite left right with
    | lt => exact WithTop.coe_lt_coe.mpr
    | eq => exact congrArg _
    | gt => exact WithTop.coe_lt_coe.mpr
  · exact WithTop.coe_lt_top _
  · exact WithTop.coe_lt_top _
  · exact rfl

structure RangeIncludes (outer inner : RationalRange) : Prop where
  low : bound outer.low ≤ bound inner.low
  high : bound inner.high ≤ bound outer.high

def RangeStrictlyBefore (left right : RationalRange) : Prop := bound left.high < bound right.low

theorem RangeIncludes.refl (range : RationalRange) : RangeIncludes range range :=
  ⟨le_refl _, le_refl _⟩

theorem RangeIncludes.trans {a b c : RationalRange} (hab : RangeIncludes a b)
    (hbc : RangeIncludes b c) : RangeIncludes a c :=
  ⟨hab.low.trans hbc.low, hbc.high.trans hab.high⟩

theorem RangeStrictlyBefore.narrow {left right narrower : RationalRange}
    (h : RangeStrictlyBefore left right) (hnarrow : RangeIncludes right narrower) :
    RangeStrictlyBefore left narrower :=
  lt_of_lt_of_le h hnarrow.low

theorem compareRationals_of_valid {left right : Rational} (hleft : validateRational left = .ok ())
    (hright : validateRational right = .ok ()) :
    compareRationals left right = .ok (cmp (bound left) (bound right)) := by
  have hok : ∃ o, compareRationals left right = .ok o := by
    rw [compareRationals, hleft, hright]
    exact ⟨_, rfl⟩
  obtain ⟨o, ho⟩ := hok
  rw [ho, (compareRationals_compares ho).cmp_eq]

/-- The comparison finds the first bound no higher than the second. -/
def NotAbove (left right : Rational) : Prop :=
  ∃ o, compareRationals left right = .ok o ∧ o ≠ .gt

theorem notAbove_iff {left right : Rational} (hleft : validateRational left = .ok ())
    (hright : validateRational right = .ok ()) :
    NotAbove left right ↔ bound left ≤ bound right := by
  rw [NotAbove, compareRationals_of_valid hleft hright, ← not_lt, ← cmp_eq_gt_iff]
  generalize cmp (bound left) (bound right) = found
  simp

variable {range : RationalRange}

/-- The ends of a range that passes the checks. -/
theorem validateRationalRange_eq_ok (h : validateRationalRange range = .ok ()) :
    validateRational range.low = .ok () ∧ validateRational range.high = .ok () := by
  obtain ⟨_, h, -⟩ := bind_eq_ok.mp h
  obtain ⟨_, hlow, h⟩ := bind_eq_ok.mp h
  obtain ⟨_, hhigh, -⟩ := bind_eq_ok.mp h
  exact ⟨hlow, hhigh⟩

theorem rationalRangeIncludes_of_valid {outer inner : RationalRange}
    (houter : validateRationalRange outer = .ok ())
    (hinner : validateRationalRange inner = .ok ()) :
    rationalRangeIncludes outer inner =
      .ok (decide (bound outer.low ≤ bound inner.low ∧ bound inner.high ≤ bound outer.high)) := by
  obtain ⟨houterLow, houterHigh⟩ := validateRationalRange_eq_ok houter
  obtain ⟨hinnerLow, hinnerHigh⟩ := validateRationalRange_eq_ok hinner
  have hanswer : decide (bound outer.low ≤ bound inner.low ∧ bound inner.high ≤ bound outer.high) =
      (cmp (bound outer.low) (bound inner.low) != .gt &&
        cmp (bound outer.high) (bound inner.high) != .lt) := by
    rw [Bool.eq_iff_iff, Bool.and_eq_true, bne_iff_ne, bne_iff_ne, decide_eq_true_eq, Ne, Ne,
      cmp_eq_gt_iff, cmp_eq_lt_iff, not_lt, not_lt]
  rw [rationalRangeIncludes, houter, hinner, compareRationals_of_valid houterLow hinnerLow,
    compareRationals_of_valid houterHigh hinnerHigh, hanswer]
  cases cmp (bound outer.low) (bound inner.low) <;> rfl

theorem rationalRangeStrictlyBefore_of_valid {left right : RationalRange}
    (hleft : validateRationalRange left = .ok ()) (hright : validateRationalRange right = .ok ()) :
    rationalRangeStrictlyBefore left right = .ok (decide (bound left.high < bound right.low)) := by
  have hanswer : decide (bound left.high < bound right.low) =
      (cmp (bound left.high) (bound right.low) == .lt) := by
    rw [Bool.eq_iff_iff, decide_eq_true_eq, beq_iff_eq, cmp_eq_lt_iff]
  rw [rationalRangeStrictlyBefore, hleft, hright, compareRationals_of_valid
    (validateRationalRange_eq_ok hleft).2 (validateRationalRange_eq_ok hright).1, hanswer]
  rfl

theorem rationalRangeIncludes_eq_true {outer inner : RationalRange}
    (h : rationalRangeIncludes outer inner = .ok true) : RangeIncludes outer inner := by
  obtain ⟨_, houter, hrest⟩ := bind_eq_ok.mp h
  obtain ⟨_, hinner, -⟩ := bind_eq_ok.mp hrest
  rw [rationalRangeIncludes_of_valid houter hinner] at h
  obtain ⟨hlow, hhigh⟩ := of_decide_eq_true (Except.ok.inj h)
  exact ⟨hlow, hhigh⟩

theorem rationalRangeStrictlyBefore_eq_true {left right : RationalRange}
    (h : rationalRangeStrictlyBefore left right = .ok true) : RangeStrictlyBefore left right := by
  obtain ⟨_, hleft, hrest⟩ := bind_eq_ok.mp h
  obtain ⟨_, hright, -⟩ := bind_eq_ok.mp hrest
  rw [rationalRangeStrictlyBefore_of_valid hleft hright] at h
  have hlt : bound left.high < bound right.low := of_decide_eq_true (Except.ok.inj h)
  exact hlt

/-- The comparison of bounds is the order of the numbers they stand for, with infinity above them:
    a total preorder that does not see how a number is written. Inclusion of ranges and "strictly
    before" are the inequalities between their ends. -/
theorem compareRationals_exact_order {a b c : Rational} {outer inner : RationalRange}
    (ha : validateRational a = .ok ()) (hb : validateRational b = .ok ())
    (hc : validateRational c = .ok ()) (houter : validateRationalRange outer = .ok ())
    (hinner : validateRationalRange inner = .ok ()) :
    compareRationals a b = .ok (cmp (bound a) (bound b)) ∧
    (NotAbove a a ∧ (NotAbove a b ∨ NotAbove b a) ∧ (NotAbove a b → NotAbove b c → NotAbove a c)) ∧
    (bound a = bound b →
      compareRationals a c = compareRationals b c ∧ compareRationals c a = compareRationals c b) ∧
    rationalRangeIncludes outer inner =
      .ok (decide (bound outer.low ≤ bound inner.low ∧ bound inner.high ≤ bound outer.high)) ∧
    rationalRangeStrictlyBefore outer inner =
    .ok (decide (bound outer.high < bound inner.low)) := by
  refine ⟨compareRationals_of_valid ha hb, ⟨?_, ?_, ?_⟩, fun hsame => ⟨?_, ?_⟩, ?_, ?_⟩
  · exact (notAbove_iff ha ha).mpr (le_refl _)
  · rw [notAbove_iff ha hb, notAbove_iff hb ha]
    exact le_total _ _
  · rw [notAbove_iff ha hb, notAbove_iff hb hc, notAbove_iff ha hc]
    exact le_trans
  · rw [compareRationals_of_valid ha hc, compareRationals_of_valid hb hc, hsame]
  · rw [compareRationals_of_valid hc ha, compareRationals_of_valid hc hb, hsame]
  · exact rationalRangeIncludes_of_valid houter hinner
  · exact rationalRangeStrictlyBefore_of_valid houter hinner

/-- The number one, written in two ways, below infinity; the ranges of all numbers from one up and
    of the single number one. -/
theorem compareRationals_exact_order_one :
    compareRationals ⟨false, [1], 0⟩ ⟨false, [0, 1, 0], -1⟩ = .ok .eq ∧
      bound ⟨false, [1], 0⟩ = bound ⟨false, [0, 1, 0], -1⟩ ∧
      compareRationals ⟨false, [0, 1, 0], -1⟩ ⟨true, [], 0⟩ = .ok .lt ∧
      NotAbove ⟨false, [1], 0⟩ ⟨true, [], 0⟩ ∧
      rationalRangeIncludes canonicalDefaultTeamIndexRange ⟨⟨false, [1], 0⟩, ⟨false, [1], 0⟩⟩ =
        .ok true := by
  have hexact := @compareRationals_exact_order ⟨false, [1], 0⟩ ⟨false, [0, 1, 0], -1⟩ ⟨true, [], 0⟩
    canonicalDefaultTeamIndexRange ⟨⟨false, [1], 0⟩, ⟨false, [1], 0⟩⟩ rfl rfl rfl rfl rfl
  have heq : compareRationals ⟨false, [1], 0⟩ ⟨false, [0, 1, 0], -1⟩ = .ok .eq := rfl
  have hbound := (cmp_eq_eq_iff _ _).mp (Except.ok.inj (hexact.1.symm.trans heq))
  have hbelow : compareRationals ⟨false, [0, 1, 0], -1⟩ ⟨true, [], 0⟩ = .ok .lt := rfl
  have hinfinity := (hexact.2.2.1 hbound).1
  exact ⟨heq, hbound, hbelow, ⟨.lt, hinfinity.trans hbelow, nofun⟩, rfl⟩

/-! ## One link -/

theorem bothOk_eq_true {first second : Except Error Bool} (h : bothOk first second = .ok true) :
    first = .ok true ∧ second = .ok true := by
  obtain ⟨answer, hanswer, h⟩ := bind_eq_ok.mp h
  rcases ite_eq_ok h with ⟨htrue, h⟩ | ⟨-, h⟩
  · exact ⟨htrue ▸ hanswer, h⟩
  · cases h

variable {change : TeamGroupChange} {s s' : TeamReplayState} {hepks : List Hepk}

theorem transitionIndexRange_includes {previous next : RationalRange}
    (h : transitionIndexRange change previous = .ok next) : RangeIncludes previous next := by
  unfold transitionIndexRange at h
  split at h
  · cases h
    exact .refl _
  · obtain ⟨_, -, h⟩ := bind_eq_ok.mp h
    obtain ⟨equal, -, h⟩ := bind_eq_ok.mp h
    obtain ⟨-, h⟩ := ite_error_eq_ok.mp h
    obtain ⟨included, hincluded, h⟩ := bind_eq_ok.mp h
    rcases ite_eq_ok h with ⟨htrue, h⟩ | ⟨-, h⟩
    · cases h
      exact rationalRangeIncludes_eq_true (htrue ▸ hincluded)
    · cases h

/-- A range never goes away and never grows, and one that is new lies before the team's. -/
theorem memberRangeFits_eq_true {prior next : Option RationalRange} {parent : RationalRange}
    (h : memberRangeFits prior next parent = .ok true) :
    (∀ old, prior = some old → ∃ new, next = some new ∧ RangeIncludes old new) ∧
    (prior ≠ next → ∀ new, next = some new → RangeStrictlyBefore new parent) := by
  unfold memberRangeFits at h
  split at h
  · rename_i new
    refine ⟨nofun, ?_⟩
    rintro - _ ⟨⟩
    exact rationalRangeStrictlyBefore_eq_true h
  · exact ⟨nofun, fun hne => absurd rfl hne⟩
  · cases h
  · rename_i old new
    rcases ite_eq_ok h with ⟨rfl, -⟩ | ⟨-, h⟩
    · refine ⟨?_, fun hne => absurd rfl hne⟩
      rintro _ ⟨⟩
      exact ⟨old, rfl, .refl _⟩
    · obtain ⟨-, h⟩ := bothOk_eq_true h
      obtain ⟨hincluded, hbefore⟩ := bothOk_eq_true h
      constructor
      · rintro _ ⟨⟩
        exact ⟨new, rfl, rationalRangeIncludes_eq_true hincluded⟩
      · rintro - _ ⟨⟩
        exact rationalRangeStrictlyBefore_eq_true hbefore

section

variable {digest : Digest} {scheme : SignatureScheme} {link : UserLink} {key : List UInt8}

namespace TeamReplayState

/-- The range of the entry at a place of the roster. -/
def rangeAt (s : TeamReplayState) (key : List UInt8) : Option RationalRange :=
  s.members[key]?.bind (·.indexRange)

/-- The entry at a place, if it has a range, lies before the team. -/
def Settled (s : TeamReplayState) (key : List UInt8) : Prop :=
  ∀ range, s.rangeAt key = some range → RangeStrictlyBefore range s.indexRange

section

variable (h : s.replay digest scheme link change hepks = .ok s')
include h

theorem replay_range_includes :
    RangeIncludes s.indexRange s'.indexRange := by
  obtain ⟨introduced, -, h⟩ := bind_eq_ok.mp h
  obtain ⟨indexRange, hrange, h⟩ := bind_eq_ok.mp h
  obtain ⟨_, -, h⟩ := bind_eq_ok.mp h
  obtain ⟨members, -, h⟩ := bind_eq_ok.mp h
  cases h
  exact transitionIndexRange_includes hrange

/-- What a link makes of the range at a place that is taken after it. -/
theorem replay_rangeAt {entry : VerifiedTeamMemberState} (hentry : s'.members[key]? = some entry) :
    s'.rangeAt key = s.rangeAt key ∨
      memberRangeFits (s.rangeAt key) (s'.rangeAt key) s'.indexRange = .ok true := by
  obtain ⟨introduced, signer, hreplayed⟩ := replay_eq_ok h
  rcases hreplayed.member_cases hentry with hold | ⟨member, -, -, hchanged⟩
  · left
    rw [rangeAt, rangeAt, hentry, hold]
  · right
    have hfits := (changedMember_eq_ok hchanged).range_fits
    rwa [rangeAt, rangeAt, hentry]

theorem replay_range_shrinks (hrange : s.rangeAt key = some range) (hstays : key ∈ s'.members) :
    ∃ range', s'.rangeAt key = some range' ∧ RangeIncludes range range' := by
  obtain ⟨entry, hentry⟩ := Option.isSome_iff_exists.mp
    (ExtTreeMap.isSome_getElem?_iff_mem.mpr hstays)
  rcases replay_rangeAt h hentry with heq | hfits
  · exact ⟨range, heq.trans hrange, .refl _⟩
  · exact (memberRangeFits_eq_true hfits).1 range hrange

/-- A range that a link has changed lies before the team's. -/
theorem settled_of_changed (hchanged : s.rangeAt key ≠ s'.rangeAt key) : s'.Settled key := by
  intro range hrange
  obtain ⟨entry, hentry, -⟩ := Option.bind_eq_some_iff.mp hrange
  rcases replay_rangeAt h hentry with heq | hfits
  · exact absurd heq.symm hchanged
  · exact (memberRangeFits_eq_true hfits).2 hchanged range hrange

end

theorem Settled.replay (hs : s.Settled key)
    (h : s.replay digest scheme link change hepks = .ok s') :
    s'.Settled key := by
  by_cases heq : s.rangeAt key = s'.rangeAt key
  · intro range hrange
    exact (hs range (heq.trans hrange)).narrow (replay_range_includes h)
  · exact settled_of_changed h heq

/-! ## Runs -/

/-- The place stays taken along a run. -/
def StaysMember (digest : Digest) (scheme : SignatureScheme) (s : TeamReplayState)
    (steps : List TeamStep) (key : List UInt8) : Prop :=
  ∀ front, front <+: steps → ∀ mid, teamReplayAll digest scheme s front = .ok mid →
    key ∈ mid.members

/-- Entries of teams have a range and those of users have none. -/
def Ranged (s : TeamReplayState) : Prop :=
  ∀ (key : List UInt8) (entry : VerifiedTeamMemberState), s.members[key]? = some entry →
    (isTeam entry.party ↔ entry.indexRange.isSome)

end TeamReplayState

theorem validateMemberRange_eq_ok {party : EntityId} {range : Option RationalRange}
    (h : validateMemberRange party range = .ok ()) : isTeam party ↔ range.isSome := by
  unfold validateMemberRange at h
  split at h
  · rcases ite_eq_ok h with ⟨hteam, -⟩ | ⟨-, h⟩
    · simp [hteam]
    · cases h
  · rcases ite_eq_ok h with ⟨huser, -⟩ | ⟨-, h⟩
    · simp [isTeam, huser, entityUser, entityNamedTeam, entityAdHocTeam]
    · cases h

namespace TeamReplayState

theorem ranged_of_eldest {team : EntityId}
    (h : fromEldest digest scheme link change hepks team = .ok s) :
    s.Ranged ∧ s.indexRange = canonicalDefaultTeamIndexRange := by
  obtain ⟨introduced, -, h⟩ := bind_eq_ok.mp h
  obtain ⟨⟨members, floor⟩, heldest, h⟩ := bind_eq_ok.mp h
  obtain ⟨range, hrange, h⟩ := bind_eq_ok.mp h
  cases h
  constructor
  · exact verifyTeamEldest_entries heldest fun member verified hok =>
      validateMemberRange_eq_ok (verifiedTeamMember_eq_ok hok).range
  · obtain ⟨_, -, hrange⟩ := bind_eq_ok.mp hrange
    obtain ⟨_, -, hrange⟩ := bind_eq_ok.mp hrange
    obtain ⟨hdefault, hrange⟩ := ite_error_eq_ok.mp hrange
    cases hrange
    exact not_not.mp hdefault

theorem Ranged.replay (hs : s.Ranged) (h : s.replay digest scheme link change hepks = .ok s') :
    s'.Ranged := by
  intro key entry hentry
  obtain ⟨introduced, signer, hreplayed⟩ := replay_eq_ok h
  rcases hreplayed.member_cases hentry with hold | ⟨member, -, -, hchanged⟩
  · exact hs key entry hold
  · exact validateMemberRange_eq_ok (changedMember_eq_ok hchanged).range

theorem replayAll_range_includes {steps : List TeamStep}
    (h : teamReplayAll digest scheme s steps = .ok s') : RangeIncludes s.indexRange s'.indexRange :=
  foldlM_invariant (P := fun t => RangeIncludes s.indexRange t.indexRange)
    (fun _ _ _ _ ht hstep => ht.trans (replay_range_includes hstep)) (.refl _) h

/-- Along a run on which the place stays taken its range only shrinks. -/
theorem replayAll_range_shrinks {steps : List TeamStep}
    (h : teamReplayAll digest scheme s steps = .ok s')
    (hstays : StaysMember digest scheme s steps key) (hrange : s.rangeAt key = some range) :
    ∃ range', s'.rangeAt key = some range' ∧ RangeIncludes range range' := by
  induction steps generalizing s range with
  | nil =>
    cases h
    exact ⟨range, hrange, .refl _⟩
  | cons step steps ih =>
    obtain ⟨mid, hstep, h⟩ := foldlM_cons_eq_ok.mp h
    have hmid : key ∈ mid.members :=
      hstays [step] (by simp) mid (foldlM_cons_eq_ok.mpr ⟨mid, hstep, rfl⟩)
    obtain ⟨next, hnext, hincludes⟩ := replay_range_shrinks hstep hrange hmid
    have hrest : StaysMember digest scheme mid steps key := fun front hfront later hlater =>
      hstays (step :: front) (List.cons_prefix_cons.mpr ⟨rfl, hfront⟩) later
        (foldlM_cons_eq_ok.mpr ⟨mid, hstep, hlater⟩)
    obtain ⟨range', hrange', hincludes'⟩ := ih h hrest hnext
    exact ⟨range', hrange', hincludes.trans hincludes'⟩

end TeamReplayState

/-- Index ranges stay nested. After an accepted eldest link, whose range is the default one, and
    accepted links: the range of the team only shrinks; the members that are teams are those with a
    range, and it only shrinks while they stay members; and a place whose range any link has changed
    lies strictly before the range of the team from then on. -/
theorem teamReplay_ranges_nested {digest : Digest} {scheme : SignatureScheme} {team : EntityId}
    {eldest : TeamStep} {before after : List TeamStep} {s₀ s s' : TeamReplayState}
    (heldest : TeamReplayState.fromEldest digest scheme eldest.link eldest.change eldest.hepks
      team = .ok s₀)
    (hbefore : teamReplayAll digest scheme s₀ before = .ok s)
    (hafter : teamReplayAll digest scheme s after = .ok s') :
    s₀.indexRange = canonicalDefaultTeamIndexRange ∧
    RangeIncludes s.indexRange s'.indexRange ∧
    s.Ranged ∧
    (∀ key range, s.rangeAt key = some range → s.StaysMember digest scheme after key →
      ∃ range', s'.rangeAt key = some range' ∧ RangeIncludes range range') ∧
    ∀ step rest s₁ key, after = step :: rest →
      s.replay digest scheme step.link step.change step.hepks = .ok s₁ →
      s.rangeAt key ≠ s₁.rangeAt key →
      ∀ range, s'.rangeAt key = some range → RangeStrictlyBefore range s'.indexRange := by
  obtain ⟨hranged, hdefault⟩ := TeamReplayState.ranged_of_eldest heldest
  refine ⟨hdefault, TeamReplayState.replayAll_range_includes hafter, ?_, ?_, ?_⟩
  · exact foldlM_invariant (fun _ _ _ _ hs hstep => hs.replay hstep) hranged hbefore
  · intro key range hrange hstays
    exact TeamReplayState.replayAll_range_shrinks hafter hstays hrange
  · rintro step rest s₁ key rfl hstep hchanged
    obtain ⟨mid, hmid, hrest⟩ := foldlM_cons_eq_ok.mp hafter
    obtain rfl : s₁ = mid := Except.ok.inj (hstep.symm.trans hmid)
    exact foldlM_invariant (P := fun t => t.Settled key) (fun _ _ _ _ ht hnext => ht.replay hnext)
      (TeamReplayState.settled_of_changed hstep hchanged) hrest

end

namespace TeamSample

open LinkSample
open Sample (scheme)

/-- Another team enters, with the range from `1/65536` to `1/256`. -/
def enrolTeam : TeamStep :=
  let change := memberChange 2 ⟨.member 0, entity entityNamedTeam 20, none, .owner,
    some ⟨ptk 20, fingerprint 1, 1, some (key 0), some ⟨⟨false, [1], -2⟩, ⟨false, [1], -1⟩⟩⟩⟩
  ⟨link change.value 1, change, []⟩

/-- The founder narrows the range of the team, to the numbers from two on. -/
def narrow : TeamStep :=
  let change := { memberChange 3 (member 1 .owner 1) with
    changes := [], metadata := [.teamIndexRange ⟨⟨false, [2, 0], -1⟩, ⟨true, [], 0⟩⟩] }
  ⟨link change.value 1, change, []⟩

def rangeRun : Except Error (TeamReplayState × TeamReplayState × TeamReplayState) := do
  let s₀ ← TeamReplayState.fromEldest digest scheme eldest.link eldest.change eldest.hepks team
  let s₁ ← s₀.replay digest scheme enrolTeam.link enrolTeam.change enrolTeam.hepks
  let s₂ ← s₁.replay digest scheme narrow.link narrow.change narrow.hepks
  .ok (s₀, s₁, s₂)

def teamPlace : List UInt8 := teamMemberKey (entity entityNamedTeam 20) none .owner

end TeamSample

open LinkSample (digest user team)
open Sample (scheme)
open TeamSample

/-- The team of the sample enters another team and is narrowed after that. -/
theorem teamReplay_ranges_nested_narrow : ∃ s₀ s₁ s₂ range,
    TeamReplayState.fromEldest digest scheme eldest.link eldest.change eldest.hepks team = .ok s₀ ∧
    teamReplayAll digest scheme s₀ [enrolTeam] = .ok s₁ ∧
    teamReplayAll digest scheme s₁ [narrow] = .ok s₂ ∧
    s₁.indexRange ≠ s₂.indexRange ∧ RangeIncludes s₁.indexRange s₂.indexRange ∧
    s₂.rangeAt teamPlace = some range ∧ RangeStrictlyBefore range s₂.indexRange := by
  have hrun : (rangeRun.toOption.any fun (s₀, s₁, s₂) =>
      (s₀.rangeAt teamPlace).isNone && (s₁.rangeAt teamPlace).isSome &&
      (s₂.rangeAt teamPlace).isSome && s₁.indexRange != s₂.indexRange) = true := by decide +kernel
  obtain ⟨⟨s₀, s₁, s₂⟩, h, hrun⟩ := exists_of_toOption_any hrun
  simp only [Bool.and_eq_true, bne_iff_ne, ne_eq] at hrun
  obtain ⟨⟨⟨hnone, hsome⟩, hstays⟩, hnarrowed⟩ := hrun
  obtain ⟨range, hrange⟩ := Option.isSome_iff_exists.mp hstays
  obtain ⟨t₀, h₀, h⟩ := bind_eq_ok.mp h
  obtain ⟨t₁, h₁, h⟩ := bind_eq_ok.mp h
  obtain ⟨t₂, h₂, h⟩ := bind_eq_ok.mp h
  cases h
  have hlast : teamReplayAll digest scheme s₁ [narrow] = .ok s₂ :=
    foldlM_cons_eq_ok.mpr ⟨s₂, h₂, rfl⟩
  have hfirst : teamReplayAll digest scheme s₀ [enrolTeam] = .ok s₁ :=
    foldlM_cons_eq_ok.mpr ⟨s₁, h₁, rfl⟩
  have hall : teamReplayAll digest scheme s₀
      [enrolTeam, narrow] = .ok s₂ :=
    foldlM_cons_eq_ok.mpr ⟨s₁, h₁, hlast⟩
  have hnothing : teamReplayAll digest scheme s₀ [] = .ok s₀ := rfl
  have hentered : s₀.rangeAt teamPlace ≠ s₁.rangeAt teamPlace := by
    intro heq
    rw [← heq, Option.isSome_iff_ne_none, Option.isNone_iff_eq_none.mp hnone] at hsome
    exact hsome rfl
  refine ⟨s₀, s₁, s₂, range, h₀, hfirst, hlast, hnarrowed, ?_, hrange, ?_⟩
  · exact (teamReplay_ranges_nested h₀ hfirst hlast).2.1
  · exact (teamReplay_ranges_nested h₀ hnothing hall).2.2.2.2 _ _ s₁ _ rfl h₁ hentered range
      hrange

end Foks.Verify
