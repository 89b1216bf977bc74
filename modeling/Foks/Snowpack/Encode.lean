/-
  The Snowpack encoder (`foks-snowpack`, `encode.rs`).

  `encode` first computes a capacity (`ownedCapacity`, which is where oversized values are
  refused), then runs `Encoder.value` over the tree. The encoder keeps the path it is at, for
  its errors and for its depth limit.

  `wire` is what a successful run writes: the canonical bytes of a value, as a function.
  `Fits depth v` collects every condition `Encoder.value` checks below `depth`, and
  `Encoder.value_eq_ok_iff` says a run succeeds exactly on those values and appends `wire v`.
  The allocation allowance of `with_allocation_budget` is not modelled: with none installed,
  `reserve_allocation` admits every request.
-/
import Foks.Snowpack.Value

namespace Foks.Snowpack

open Foks.Lib

def u32Max : Nat := 4294967295

/-- `usize::checked_add` on a 64-bit target. -/
def checkedAdd (a b : Nat) : Option Nat := if a + b < 2 ^ 64 then some (a + b) else none

/-! ## Capacity -/

/-- `encoding_capacity` of a byte field (binary or text). -/
def bytesCapacity (bytes : List UInt8) (depth : Nat) : Except Error Nat :=
  if depth > maxDepth then .error ⟨.depthLimit, 0, []⟩
  else if bytes.length > u32Max then .error ⟨.lengthOverflow, 0, []⟩
  else okOr ⟨.lengthOverflow, 0, []⟩ (checkedAdd 9 bytes.length)

mutual

def ownedCapacity : Value → Nat → Except Error Nat
  | .binary bytes, depth => bytesCapacity bytes depth
  | .text bytes, depth => bytesCapacity bytes depth
  | .array values, depth =>
    if depth > maxDepth then .error ⟨.depthLimit, 0, []⟩
    else ownedCapacities 9 values (depth + 1)
  | .variant tag value, depth =>
    if depth > maxDepth then .error ⟨.depthLimit, 0, []⟩
    else do
      let inner ← ownedCapacity value (depth + 1)
      okOr ⟨.lengthOverflow, 0, []⟩ (checkedAdd (9 + tag.length) inner)
  | .null, _ | .bool _, _ | .unsigned _, _ | .negative _, _ | .variantNone, _ => .ok 9

/-- The `try_fold` over an array's elements. -/
def ownedCapacities (total : Nat) : List Value → Nat → Except Error Nat
  | [], _ => .ok total
  | value :: values, depth => do
    let one ← ownedCapacity value depth
    let total ← okOr ⟨.lengthOverflow, 0, []⟩ (checkedAdd total one)
    ownedCapacities total values depth

end

/-! ## The encoder -/

structure Encoder where
  output : List UInt8
  path : List PathSegment

namespace Encoder

def error (e : Encoder) (kind : ErrorKind) : Error := ⟨kind, e.output.length, e.path⟩

def extend (e : Encoder) (bytes : List UInt8) : Encoder := { e with output := e.output ++ bytes }

def push (e : Encoder) (segment : PathSegment) : Encoder :=
  { e with path := e.path ++ [segment] }

end Encoder

/-- Shortest unsigned form. -/
def unsignedBytes (value : UInt64) : List UInt8 :=
  if value.toNat ≤ 0x7f then [UInt8.ofNat value.toNat]
  else if value.toNat ≤ 0xff then [0xcc, UInt8.ofNat value.toNat]
  else if value.toNat ≤ 0xffff then 0xcd :: toBE 2 value.toNat
  else if value.toNat ≤ 0xffffffff then 0xce :: toBE 4 value.toNat
  else 0xcf :: toBE 8 value.toNat

/-- Shortest form of a negative integer. -/
def negativeBytes (value : Int64) : List UInt8 :=
  if -32 ≤ value.toInt then signedToBE 1 value.toInt
  else if -128 ≤ value.toInt then 0xd0 :: signedToBE 1 value.toInt
  else if -32768 ≤ value.toInt then 0xd1 :: signedToBE 2 value.toInt
  else if -2147483648 ≤ value.toInt then 0xd2 :: signedToBE 4 value.toInt
  else 0xd3 :: signedToBE 8 value.toInt

/-- `write_len_header`: a length header with an 8, a 16 and a 32 bit form, for lengths within
    `u32`. -/
def lenHeader (length : Nat) (marker8 marker16 marker32 : UInt8) (min8 min16 : Nat) :
    List UInt8 :=
  if min8 ≤ length ∧ length ≤ 255 then [marker8, UInt8.ofNat length]
  else if min16 ≤ length ∧ length ≤ 65535 then marker16 :: toBE 2 length
  else marker32 :: toBE 4 length

def binaryHeader (length : Nat) : List UInt8 := lenHeader length 0xc4 0xc5 0xc6 0 0

def textHeader (length : Nat) : List UInt8 :=
  if length ≤ 31 then [0xa0 ||| UInt8.ofNat length]
  else if length ≤ 255 then [0xd9, UInt8.ofNat length]
  else if length ≤ 65535 then 0xda :: toBE 2 length
  else 0xdb :: toBE 4 length

/-- Header of a non-empty array. -/
def arrayHeader (length : Nat) : List UInt8 :=
  if length ≤ 15 then [0x90 ||| UInt8.ofNat length]
  else if length ≤ 65535 then 0xdc :: toBE 2 length
  else 0xdd :: toBE 4 length

def variantHeader (tag : List UInt8) : List UInt8 :=
  [0x81, 0xa0 ||| UInt8.ofNat tag.length] ++ tag

namespace Encoder

def negative (e : Encoder) (value : Int64) : Except Error Encoder :=
  if 0 ≤ value.toInt then .error (e.error .nonNegativeSignedInteger)
  else .ok (e.extend (negativeBytes value))

def binary (e : Encoder) (bytes : List UInt8) : Except Error Encoder :=
  -- the free function `write_len_header` reports the offset without the path
  if bytes.length > u32Max then .error ⟨.lengthOverflow, e.output.length, []⟩
  else .ok (e.extend (binaryHeader bytes.length ++ bytes))

def text (e : Encoder) (bytes : List UInt8) : Except Error Encoder :=
  if bytes.length > u32Max then .error (e.error .lengthOverflow)
  else .ok (e.extend (textHeader bytes.length ++ bytes))

def writeArrayHeader (e : Encoder) (length : Nat) : Except Error Encoder :=
  if length = 0 then .error (e.error .emptyArray)
  else if length > u32Max then .error (e.error .lengthOverflow)
  else .ok (e.extend (arrayHeader length))

/-- The depth check in front of every value. -/
def atDepth (e : Encoder) (rest : Except Error Encoder) : Except Error Encoder :=
  if e.path.length > maxDepth then .error (e.error .depthLimit) else rest

mutual

def value (e : Encoder) : Value → Except Error Encoder
  | .null => e.atDepth (.ok (e.extend [0xc0]))
  | .bool false => e.atDepth (.ok (e.extend [0xc2]))
  | .bool true => e.atDepth (.ok (e.extend [0xc3]))
  | .unsigned n => e.atDepth (.ok (e.extend (unsignedBytes n)))
  | .negative n => e.atDepth (e.negative n)
  | .binary bytes => e.atDepth (e.binary bytes)
  | .text bytes => e.atDepth (e.text bytes)
  | .array values => e.atDepth do
    let opened ← e.writeArrayHeader values.length
    arrayItems opened 0 values
  | .variantNone => e.atDepth (.ok (e.extend [0x80]))
  | .variant tag inner => e.atDepth <|
    if tag.length > 31 then .error (e.error .invalidVariantTag)
    else do
      let opened := e.extend (variantHeader tag)
      let done ← value (opened.push (.variant tag)) inner
      .ok { done with path := e.path }

/-- The loop over an array's elements; each is written one path segment deeper. -/
def arrayItems (e : Encoder) (index : Nat) : List Value → Except Error Encoder
  | [] => .ok e
  | v :: vs => do
    let done ← value (e.push (.index index)) v
    arrayItems { done with path := e.path } (index + 1) vs

end

end Encoder

def encode (value : Value) : Except Error (List UInt8) := do
  let _ ← ownedCapacity value 0
  let e ← Encoder.value ⟨[], []⟩ value
  .ok e.output

/-! ## What a successful run writes -/

mutual

/-- The canonical bytes of a value. -/
def wire : Value → List UInt8
  | .null => [0xc0]
  | .bool false => [0xc2]
  | .bool true => [0xc3]
  | .unsigned n => unsignedBytes n
  | .negative n => negativeBytes n
  | .binary bytes => binaryHeader bytes.length ++ bytes
  | .text bytes => textHeader bytes.length ++ bytes
  | .array values => arrayHeader values.length ++ wires values
  | .variantNone => [0x80]
  | .variant tag value => variantHeader tag ++ wire value

def wires : List Value → List UInt8
  | [] => []
  | v :: vs => wire v ++ wires vs

end

mutual

/-- What the encoder asks of a value that stands `depth` steps below the root. -/
def Fits (depth : Nat) : Value → Prop
  | .null | .bool _ | .unsigned _ | .variantNone => depth ≤ maxDepth
  | .negative n => depth ≤ maxDepth ∧ n.toInt < 0
  | .binary bytes | .text bytes => depth ≤ maxDepth ∧ bytes.length ≤ u32Max
  | .array values =>
    depth ≤ maxDepth ∧ values ≠ [] ∧ values.length ≤ u32Max ∧ FitsAll (depth + 1) values
  | .variant tag value => depth ≤ maxDepth ∧ tag.length ≤ 31 ∧ Fits (depth + 1) value

def FitsAll (depth : Nat) : List Value → Prop
  | [] => True
  | v :: vs => Fits depth v ∧ FitsAll depth vs

end

theorem fitsAll_iff (depth : Nat) (vs : List Value) :
    FitsAll depth vs ↔ ∀ v ∈ vs, Fits depth v := by
  induction vs with
  | nil => simp [FitsAll]
  | cons v vs ih => simp [FitsAll, ih]

variable {v : Value} {depth : Nat}

/-- A value that fits further down fits higher up. -/
theorem Fits.mono {depth' : Nat} (hle : depth ≤ depth') (h : Fits depth' v) : Fits depth v := by
  induction v generalizing depth depth' with
  | null | bool _ | unsigned _ | variantNone => exact hle.trans h
  | negative _ | binary _ | text _ => exact ⟨hle.trans h.1, h.2⟩
  | array vs ih =>
    obtain ⟨hdepth, hne, hlen, hall⟩ := h
    rw [fitsAll_iff] at hall
    refine ⟨hle.trans hdepth, hne, hlen, (fitsAll_iff _ _).mpr fun v hv => ?_⟩
    exact ih v hv (Nat.succ_le_succ hle) (hall v hv)
  | variant tag v ih => exact ⟨hle.trans h.1, h.2.1, ih (Nat.succ_le_succ hle) h.2.2⟩

theorem Fits.depth_le (h : Fits depth v) : depth ≤ maxDepth := by
  cases v <;> simp_all [Fits]

variable {bs : List UInt8}

namespace Encoder

@[simp] theorem extend_path (e : Encoder) (bs : List UInt8) : (e.extend bs).path = e.path := rfl

@[simp] theorem push_path (e : Encoder) (seg : PathSegment) :
    (e.push seg).path = e.path ++ [seg] := rfl

@[simp] theorem extend_extend (e : Encoder) (bs cs : List UInt8) :
    (e.extend bs).extend cs = e.extend (bs ++ cs) := by
  simp [extend]

/-- Leaving the segment a value was written under. -/
@[simp] theorem pop_push_extend (e : Encoder) (seg : PathSegment) (bs : List UInt8) :
    { (e.push seg).extend bs with path := e.path } = e.extend bs := rfl

theorem atDepth_eq_ok_iff {e e' : Encoder} {rest : Except Error Encoder} :
    e.atDepth rest = .ok e' ↔ e.path.length ≤ maxDepth ∧ rest = .ok e' := by
  unfold atDepth
  rw [ite_error_eq_ok, Nat.not_lt]

theorem negative_eq_ok_iff {e e' : Encoder} {n : Int64} :
    e.negative n = .ok e' ↔ n.toInt < 0 ∧ e.extend (negativeBytes n) = e' := by
  unfold negative
  rw [ite_error_eq_ok, Except.ok.injEq, Int.not_le]

theorem binary_eq_ok_iff {e e' : Encoder} : e.binary bs = .ok e' ↔
      bs.length ≤ u32Max ∧ e.extend (binaryHeader bs.length ++ bs) = e' := by
  unfold binary
  rw [ite_error_eq_ok, Except.ok.injEq, Nat.not_lt]

theorem text_eq_ok_iff {e e' : Encoder} :
    e.text bs = .ok e' ↔ bs.length ≤ u32Max ∧ e.extend (textHeader bs.length ++ bs) = e' := by
  unfold text
  rw [ite_error_eq_ok, Except.ok.injEq, Nat.not_lt]

theorem writeArrayHeader_eq_ok_iff {e e' : Encoder} {n : Nat} :
    e.writeArrayHeader n = .ok e' ↔ n ≠ 0 ∧ n ≤ u32Max ∧ e.extend (arrayHeader n) = e' := by
  unfold writeArrayHeader
  rw [ite_error_eq_ok, ite_error_eq_ok, Except.ok.injEq, Nat.not_lt]

/-- The element loop, given the law for each element. -/
theorem arrayItems_eq_ok_iff (vs : List Value)
    (hv : ∀ v ∈ vs, ∀ e e' : Encoder,
      e.value v = .ok e' ↔ Fits e.path.length v ∧ e.extend (wire v) = e')
    (e e' : Encoder) (index : Nat) :
    e.arrayItems index vs = .ok e' ↔
      FitsAll (e.path.length + 1) vs ∧ e.extend (wires vs) = e' := by
  induction vs generalizing e index with
  | nil => simp [arrayItems, FitsAll, wires, extend]
  | cons v vs ih =>
    rw [arrayItems, bind_eq_ok]
    have hrest := ih (fun w hw => hv w (List.mem_cons_of_mem _ hw))
    constructor
    · rintro ⟨done, hdone, h⟩
      obtain ⟨hfit, rfl⟩ := (hv v List.mem_cons_self _ _).mp hdone
      rw [pop_push_extend, hrest] at h
      refine ⟨⟨by simpa using hfit, by simpa using h.1⟩, ?_⟩
      rw [← h.2, extend_extend, wires]
    · rintro ⟨⟨hfit, hfits⟩, rfl⟩
      refine ⟨(e.push (.index index)).extend (wire v), ?_, ?_⟩
      · rw [hv v List.mem_cons_self]
        exact ⟨by simpa using hfit, rfl⟩
      · rw [pop_push_extend, hrest]
        exact ⟨by simpa using hfits, by rw [extend_extend, wires]⟩

/-- The encoder writes `wire v`, on exactly the values that fit where it stands. -/
theorem value_eq_ok_iff (v : Value) (e e' : Encoder) :
    e.value v = .ok e' ↔ Fits e.path.length v ∧ e.extend (wire v) = e' := by
  induction v generalizing e e' with
  | null | unsigned n | variantNone =>
    simp [value, atDepth_eq_ok_iff, Fits, wire]
  | bool b => cases b <;> simp [value, atDepth_eq_ok_iff, Fits, wire]
  | negative n => simp [value, atDepth_eq_ok_iff, negative_eq_ok_iff, Fits, wire, and_assoc]
  | binary bs => simp [value, atDepth_eq_ok_iff, binary_eq_ok_iff, Fits, wire, and_assoc]
  | text bs => simp [value, atDepth_eq_ok_iff, text_eq_ok_iff, Fits, wire, and_assoc]
  | array vs ih =>
    rw [value, atDepth_eq_ok_iff, bind_eq_ok]
    simp only [writeArrayHeader_eq_ok_iff, Fits, wire]
    constructor
    · rintro ⟨hd, opened, ⟨hne, hlen, rfl⟩, h⟩
      obtain ⟨hall, rfl⟩ := (arrayItems_eq_ok_iff vs ih _ _ _).mp h
      exact ⟨⟨hd, by simpa using hne, hlen, hall⟩, by rw [extend_extend]⟩
    · rintro ⟨⟨hd, hne, hlen, hall⟩, rfl⟩
      refine ⟨hd, _, ⟨by simpa using hne, hlen, rfl⟩, ?_⟩
      rw [arrayItems_eq_ok_iff vs ih]
      exact ⟨hall, by rw [extend_extend]⟩
  | variant tag v ih =>
    rw [value, atDepth_eq_ok_iff, ite_error_eq_ok, bind_eq_ok]
    simp only [Fits, wire]
    constructor
    · rintro ⟨hd, ht, done, hdone, h⟩
      obtain ⟨hfit, rfl⟩ := (ih _ _).mp hdone
      cases h
      refine ⟨⟨hd, by omega, by simpa using hfit⟩, ?_⟩
      simp [extend, push]
    · rintro ⟨⟨hd, ht, hfit⟩, rfl⟩
      refine ⟨hd, by omega, _, (ih _ _).mpr ⟨by simpa using hfit, rfl⟩, ?_⟩
      simp [extend, push]

end Encoder

/-! ## The capacity pass accepts every value that fits and is not astronomically large -/

/-- Bytes one value can claim in the capacity pass: a header and a `u32` payload. -/
def capacityUnit : Nat := 2 ^ 33

theorem checkedAdd_eq_some {a b : Nat} (h : a + b < 2 ^ 64) : checkedAdd a b = some (a + b) :=
  if_pos h

theorem checkedAdd_eq_some_iff {a b c : Nat} :
    checkedAdd a b = some c ↔ a + b < 2 ^ 64 ∧ a + b = c := by
  unfold checkedAdd
  rw [Option.ite_none_right_eq_some, Option.some.injEq]

theorem bytesCapacity_ok (hd : depth ≤ maxDepth) (hlen : bs.length ≤ u32Max) :
    ∃ c, bytesCapacity bs depth = .ok c ∧ c ≤ capacityUnit := by
  have hsum : 9 + bs.length < 2 ^ 64 := by unfold u32Max at hlen; omega
  refine ⟨9 + bs.length, ?_, ?_⟩
  · unfold bytesCapacity
    rw [if_neg (by omega), if_neg (by omega), checkedAdd_eq_some hsum]
    rfl
  · unfold u32Max at hlen
    unfold capacityUnit
    omega

theorem ownedCapacities_ok (vs : List Value) (depth total : Nat)
    (hv : ∀ v ∈ vs, ∃ c, ownedCapacity v depth = .ok c ∧ c ≤ capacityUnit * v.size)
    (hsize : total + capacityUnit * Value.sizes vs < 2 ^ 64) :
    ∃ c, ownedCapacities total vs depth = .ok c ∧
      c ≤ total + capacityUnit * Value.sizes vs := by
  induction vs generalizing total with
  | nil => exact ⟨total, rfl, by simp [Value.sizes]⟩
  | cons v vs ih =>
    obtain ⟨c, hc, hcle⟩ := hv v List.mem_cons_self
    rw [Value.sizes, Nat.mul_add] at hsize ⊢
    obtain ⟨t, ht, htle⟩ := ih (total + c) (fun w hw => hv w (List.mem_cons_of_mem _ hw))
      (by omega)
    refine ⟨t, ?_, by omega⟩
    rw [ownedCapacities, hc, ok_bind, checkedAdd_eq_some (by omega)]
    exact ht

theorem ownedCapacity_ok (v : Value) (depth : Nat) (hfit : Fits depth v)
    (hsize : capacityUnit * v.size < 2 ^ 64) :
    ∃ c, ownedCapacity v depth = .ok c ∧ c ≤ capacityUnit * v.size := by
  induction v generalizing depth with
  | null | bool b | unsigned n | negative n | variantNone =>
    exact ⟨9, rfl, by simp [Value.size, capacityUnit]⟩
  | binary bs | text bs =>
    obtain ⟨hd, hlen⟩ := hfit
    simpa [ownedCapacity, Value.size] using bytesCapacity_ok hd hlen
  | array vs ih =>
    obtain ⟨hd, -, -, hall⟩ := hfit
    rw [fitsAll_iff] at hall
    rw [Value.size, Nat.mul_add, Nat.mul_one] at hsize ⊢
    have hunit : 9 ≤ capacityUnit := by unfold capacityUnit; omega
    have hvs : ∀ v ∈ vs, ∃ c, ownedCapacity v (depth + 1) = .ok c ∧ c ≤ capacityUnit * v.size := by
      intro v hv
      have hle := Nat.mul_le_mul_left capacityUnit (Value.size_le_sizes hv)
      exact ih v hv _ (hall v hv) (by omega)
    obtain ⟨c, hc, hcle⟩ := ownedCapacities_ok vs (depth + 1) 9 hvs (by omega)
    refine ⟨c, ?_, by omega⟩
    rw [ownedCapacity, if_neg (by omega), hc]
  | variant tag v ih =>
    obtain ⟨hd, htag, hfit⟩ := hfit
    rw [Value.size, Nat.mul_add, Nat.mul_one] at hsize ⊢
    obtain ⟨c, hc, hcle⟩ := ih _ hfit (by omega)
    have hunit : 9 + 31 ≤ capacityUnit := by unfold capacityUnit; omega
    refine ⟨9 + tag.length + c, ?_, by omega⟩
    rw [ownedCapacity, if_neg (by omega), hc, ok_bind, checkedAdd_eq_some (by omega)]
    rfl

/-! ## What the capacity pass counts -/

mutual

/-- The capacity of a value without the checks: nine bytes for each node, and its own bytes. -/
def demand : Value → Nat
  | .binary bytes | .text bytes => 9 + bytes.length
  | .array values => 9 + demands values
  | .variant tag value => 9 + tag.length + demand value
  | .null | .bool _ | .unsigned _ | .negative _ | .variantNone => 9

def demands : List Value → Nat
  | [] => 0
  | v :: vs => demand v + demands vs

end

theorem demands_append (vs ws : List Value) : demands (vs ++ ws) = demands vs + demands ws := by
  induction vs with
  | nil => simp [demands]
  | cons v vs ih => rw [List.cons_append, demands, ih, demands, Nat.add_assoc]

theorem bytesCapacity_eq_ok {c : Nat} (h : bytesCapacity bs depth = .ok c) :
    c = 9 + bs.length ∧ c < 2 ^ 64 := by
  obtain ⟨-, h⟩ := ite_error_eq_ok.mp h
  obtain ⟨-, h⟩ := ite_error_eq_ok.mp h
  obtain ⟨hlt, rfl⟩ := checkedAdd_eq_some_iff.mp (okOr_eq_ok.mp h)
  exact ⟨rfl, hlt⟩

theorem ownedCapacities_eq_ok (vs : List Value) (depth total c : Nat) (htotal : total < 2 ^ 64)
    (hv : ∀ v ∈ vs, ∀ c, ownedCapacity v depth = .ok c → c = demand v ∧ c < 2 ^ 64)
    (h : ownedCapacities total vs depth = .ok c) : c = total + demands vs ∧ c < 2 ^ 64 := by
  induction vs generalizing total with
  | nil =>
    cases h
    exact ⟨rfl, htotal⟩
  | cons v vs ih =>
    obtain ⟨one, hone, h⟩ := bind_eq_ok.mp h
    obtain ⟨sum, hsum, h⟩ := bind_eq_ok.mp h
    obtain ⟨hlt, rfl⟩ := checkedAdd_eq_some_iff.mp (okOr_eq_ok.mp hsum)
    obtain ⟨rfl, -⟩ := hv v List.mem_cons_self one hone
    rw [demands, ← Nat.add_assoc]
    exact ih _ hlt (fun w hw => hv w (List.mem_cons_of_mem _ hw)) h

/-- What the capacity pass returns does not depend on the depth. -/
theorem ownedCapacity_eq_ok (v : Value) (depth c : Nat) (h : ownedCapacity v depth = .ok c) :
    c = demand v ∧ c < 2 ^ 64 := by
  induction v generalizing depth c with
  | null | bool _ | unsigned _ | negative _ | variantNone =>
    cases h
    exact ⟨rfl, by omega⟩
  | binary bs | text bs => exact bytesCapacity_eq_ok h
  | array vs ih =>
    obtain ⟨-, h⟩ := ite_error_eq_ok.mp h
    exact ownedCapacities_eq_ok vs (depth + 1) 9 c (by omega) (fun v hv => ih v hv _) h
  | variant tag v ih =>
    rw [ownedCapacity] at h
    obtain ⟨-, h⟩ := ite_error_eq_ok.mp h
    obtain ⟨inner, hinner, h⟩ := bind_eq_ok.mp h
    obtain ⟨hlt, rfl⟩ := checkedAdd_eq_some_iff.mp (okOr_eq_ok.mp h)
    obtain ⟨rfl, -⟩ := ih (depth + 1) inner hinner
    exact ⟨rfl, hlt⟩

theorem arrayHeader_length_le (n : Nat) : (arrayHeader n).length ≤ 9 := by
  unfold arrayHeader
  split_ifs <;> simp [toBE_length]

theorem wires_length_le_demands (vs : List Value) (hv : ∀ v ∈ vs, (wire v).length ≤ demand v) :
    (wires vs).length ≤ demands vs := by
  induction vs with
  | nil => rfl
  | cons v vs ih =>
    rw [List.forall_mem_cons] at hv
    rw [wires, demands, List.length_append]
    exact Nat.add_le_add hv.1 (ih hv.2)

/-- The encoder writes no more than the capacity pass counts. -/
theorem wire_length_le_demand (v : Value) : (wire v).length ≤ demand v := by
  induction v with
  | null | variantNone => simp [wire, demand]
  | bool b => cases b <;> simp [wire, demand]
  | unsigned n =>
    simp only [wire, unsignedBytes]
    split_ifs <;> simp [toBE_length, demand]
  | negative n =>
    simp only [wire, negativeBytes]
    split_ifs <;> simp [signedToBE_length, demand]
  | binary bs =>
    simp only [wire, binaryHeader, lenHeader]
    split_ifs <;> grind [toBE_length, demand]
  | text bs =>
    simp only [wire, textHeader]
    split_ifs <;> grind [toBE_length, demand]
  | array vs ih =>
    rw [wire, demand, List.length_append]
    exact Nat.add_le_add (arrayHeader_length_le _) (wires_length_le_demands vs ih)
  | variant tag v ih =>
    simp only [wire, demand, variantHeader, List.length_append, List.length_cons, List.length_nil]
    omega

/-- A successful `encode` wrote `wire v`, and `v` fits at the root. -/
theorem encode_eq_ok (h : encode v = .ok bs) : Fits 0 v ∧ bs = wire v := by
  obtain ⟨-, -, h⟩ := bind_eq_ok.mp h
  obtain ⟨e, he, h⟩ := bind_eq_ok.mp h
  obtain ⟨hfit, rfl⟩ := (Encoder.value_eq_ok_iff v _ _).mp he
  cases h
  exact ⟨hfit, rfl⟩

/-- `encode` succeeds on every value that fits and has at most `2^31 - 1` nodes. -/
theorem encode_of_fits (hfit : Fits 0 v) (hsize : v.size < 2 ^ 31) : encode v = .ok (wire v) := by
  have hunit : capacityUnit * v.size < 2 ^ 64 := by unfold capacityUnit; omega
  obtain ⟨c, hc, -⟩ := ownedCapacity_ok v 0 hfit hunit
  have hrun : Encoder.value ⟨[], []⟩ v = .ok ((⟨[], []⟩ : Encoder).extend (wire v)) :=
    (Encoder.value_eq_ok_iff v _ _).mpr ⟨hfit, rfl⟩
  unfold encode
  rw [hc, ok_bind, hrun, ok_bind]
  rfl

end Foks.Snowpack
