/-
  The encoder of borrowed values (`foks-snowpack`, `encode.rs`).

  `encode_ref` writes a tree whose parts may be owned, so that sensitive bytes need not be copied
  first. It has a capacity pass and a writer of its own, which check the depth at other places than
  those of `encode`. The writers agree step by step, errors included (`Encoder.valueRef_eq`); the
  capacities agree on what the writers accept (`encodingCapacity_eq`). So the two encoders accept
  the same values and write the same bytes. Neither outgrows the buffer that it reserved before the
  first byte (`output_length_le_capacity`): a larger one would leave a copy of the bytes behind.
-/
import Foks.Snowpack.Encode

namespace Foks.Snowpack

open Foks.Lib

/-- A borrowed value, or an owned one in its place. -/
inductive ValueRef where
  | owned (value : Value)
  | value (value : Value)
  | null
  | bool (value : Bool)
  | unsigned (value : UInt64)
  | negative (value : Int64)
  | binary (bytes : List UInt8)
  | text (bytes : List UInt8)
  | array (values : List ValueRef)
  | variantNone
  | variant (tag : List UInt8) (value : ValueRef)

namespace ValueRef

@[induction_eliminator]
theorem ind {P : ValueRef → Prop} (owned : ∀ v, P (.owned v)) (value : ∀ v, P (.value v))
    (null : P .null) (bool : ∀ b, P (.bool b)) (unsigned : ∀ v, P (.unsigned v))
    (negative : ∀ v, P (.negative v)) (binary : ∀ bs, P (.binary bs)) (text : ∀ bs, P (.text bs))
    (array : ∀ rs, (∀ r ∈ rs, P r) → P (.array rs)) (variantNone : P .variantNone)
    (variant : ∀ tag r, P r → P (.variant tag r)) (r : ValueRef) : P r :=
  @ValueRef.rec P (fun rs => ∀ r ∈ rs, P r) owned value null bool unsigned negative binary text
    array variantNone variant (fun _ h => nomatch h)
    (fun _ _ hr hrs w hw => (List.mem_cons.mp hw).elim (fun e => e ▸ hr) (hrs w)) r

mutual

/-- The owned value that a borrowed one denotes. -/
def denotes : ValueRef → Value
  | .owned v | .value v => v
  | .null => .null
  | .bool b => .bool b
  | .unsigned n => .unsigned n
  | .negative n => .negative n
  | .binary bytes => .binary bytes
  | .text bytes => .text bytes
  | .array rs => .array (denoteAll rs)
  | .variantNone => .variantNone
  | .variant tag r => .variant tag r.denotes

def denoteAll : List ValueRef → List Value
  | [] => []
  | r :: rs => r.denotes :: denoteAll rs

end

theorem denoteAll_eq (rs : List ValueRef) : denoteAll rs = rs.map denotes := by
  induction rs with
  | nil => rfl
  | cons r rs ih => rw [denoteAll, ih, List.map_cons]

end ValueRef

/-! ## Capacity -/

mutual

def encodingCapacity (r : ValueRef) (depth : Nat) : Except Error Nat :=
  if depth > maxDepth then .error ⟨.depthLimit, 0, []⟩
  else
    match r with
    | .owned v | .value v => ownedCapacity v depth
    | .binary bytes | .text bytes => bytesCapacity bytes depth
    | .array rs => encodingCapacities 9 rs (depth + 1)
    | .variant tag r => do
      let tagged ← bytesCapacity tag depth
      let inner ← encodingCapacity r (depth + 1)
      okOr ⟨.lengthOverflow, 0, []⟩ (checkedAdd tagged inner)
    | .null | .bool _ | .unsigned _ | .negative _ | .variantNone => .ok 9

/-- The `try_fold` over the elements of a borrowed array. -/
def encodingCapacities (total : Nat) : List ValueRef → Nat → Except Error Nat
  | [], _ => .ok total
  | r :: rs, depth => do
    let one ← encodingCapacity r depth
    let total ← okOr ⟨.lengthOverflow, 0, []⟩ (checkedAdd total one)
    encodingCapacities total rs depth

end

/-! ## The encoder -/

namespace Encoder

mutual

def valueRef (e : Encoder) : ValueRef → Except Error Encoder
  | .owned v | .value v => e.atDepth (e.value v)
  | .null => e.atDepth (.ok (e.extend [0xc0]))
  | .bool false => e.atDepth (.ok (e.extend [0xc2]))
  | .bool true => e.atDepth (.ok (e.extend [0xc3]))
  | .unsigned n => e.atDepth (.ok (e.extend (unsignedBytes n)))
  | .negative n => e.atDepth (e.negative n)
  | .binary bytes => e.atDepth (e.binary bytes)
  | .text bytes => e.atDepth (e.text bytes)
  | .array rs => e.atDepth do
    let opened ← e.writeArrayHeader rs.length
    arrayRef opened 0 rs
  | .variantNone => e.atDepth (.ok (e.extend [0x80]))
  | .variant tag r => e.atDepth <|
    if tag.length > 31 then .error (e.error .invalidVariantTag)
    else do
      let opened := e.extend (variantHeader tag)
      let done ← valueRef (opened.push (.variant tag)) r
      .ok { done with path := e.path }

def arrayRef (e : Encoder) (index : Nat) : List ValueRef → Except Error Encoder
  | [] => .ok e
  | r :: rs => do
    let done ← valueRef (e.push (.index index)) r
    arrayRef { done with path := e.path } (index + 1) rs

end

end Encoder

def encodeRef (r : ValueRef) : Except Error (List UInt8) := do
  let _ ← encodingCapacity r 0
  let e ← Encoder.valueRef ⟨[], []⟩ r
  .ok e.output

/-! ## The two encoders -/

namespace Encoder

theorem atDepth_atDepth (e : Encoder) (rest : Except Error Encoder) :
    e.atDepth (e.atDepth rest) = e.atDepth rest := by
  unfold atDepth
  split <;> rfl

/-- Each value begins with the depth check, so that a second one in front of it changes nothing. -/
theorem atDepth_value (e : Encoder) (v : Value) : e.atDepth (e.value v) = e.value v := by
  cases v with
  | bool b => cases b <;> exact atDepth_atDepth ..
  | _ => rw [value, atDepth_atDepth]

theorem arrayRef_eq (rs : List ValueRef) (e : Encoder) (index : Nat)
    (hr : ∀ r ∈ rs, ∀ e : Encoder, e.valueRef r = e.value r.denotes) :
    e.arrayRef index rs = e.arrayItems index (ValueRef.denoteAll rs) := by
  induction rs generalizing e index with
  | nil => rfl
  | cons r rs ih =>
    rw [List.forall_mem_cons] at hr
    rw [arrayRef, ValueRef.denoteAll, arrayItems, hr.1]
    exact bind_congr fun done => ih _ _ hr.2

/-- The writer of a borrowed value does what the writer of the owned one does. -/
theorem valueRef_eq (r : ValueRef) (e : Encoder) : e.valueRef r = e.value r.denotes := by
  induction r generalizing e with
  | owned v | value v => exact e.atDepth_value v
  | bool b => cases b <;> rfl
  | array rs ih =>
    rw [valueRef, ValueRef.denotes, value, ValueRef.denoteAll_eq, List.length_map,
      ← ValueRef.denoteAll_eq]
    exact congrArg e.atDepth (bind_congr fun opened => arrayRef_eq rs opened 0 ih)
  | variant tag r ih =>
    rw [valueRef, ValueRef.denotes, value]
    dsimp only
    rw [ih]
  | _ => rfl

end Encoder

theorem encodingCapacities_eq (rs : List ValueRef) (total depth : Nat)
    (hr : ∀ r ∈ rs, encodingCapacity r depth = ownedCapacity r.denotes depth) :
    encodingCapacities total rs depth = ownedCapacities total (ValueRef.denoteAll rs) depth := by
  induction rs generalizing total with
  | nil => rfl
  | cons r rs ih =>
    rw [List.forall_mem_cons] at hr
    rw [encodingCapacities, ValueRef.denoteAll, ownedCapacities, hr.1]
    exact bind_congr fun one => bind_congr fun total => ih total hr.2

variable {r : ValueRef}

/-- On a value that fits, the depth checks that only one of the passes makes do not fire, and a tag
    is short. -/
theorem encodingCapacity_eq {depth : Nat} (h : Fits depth r.denotes) :
    encodingCapacity r depth = ownedCapacity r.denotes depth := by
  have hdepth : ¬ depth > maxDepth := Nat.not_lt.mpr h.depth_le
  induction r generalizing depth with
  | array rs ih =>
    rw [encodingCapacity, if_neg hdepth, ValueRef.denotes, ownedCapacity, if_neg hdepth]
    obtain ⟨-, -, -, hall⟩ := h
    refine encodingCapacities_eq rs 9 (depth + 1) fun r hr => ?_
    rw [fitsAll_iff, ValueRef.denoteAll_eq] at hall
    have hfits := hall r.denotes (List.mem_map_of_mem hr)
    exact ih r hr hfits (Nat.not_lt.mpr hfits.depth_le)
  | variant tag r ih =>
    obtain ⟨-, htag, hfits⟩ := h
    have htagged : bytesCapacity tag depth = .ok (9 + tag.length) := by
      unfold bytesCapacity
      rw [if_neg hdepth, if_neg (by unfold u32Max; omega), checkedAdd_eq_some (by omega)]
      rfl
    rw [encodingCapacity, if_neg hdepth, ValueRef.denotes, ownedCapacity, if_neg hdepth]
    rw [htagged, ok_bind, ih hfits (Nat.not_lt.mpr hfits.depth_le)]
  | _ =>
    rw [encodingCapacity, if_neg hdepth]
    rfl

/-- The encoders of borrowed and of owned values agree: one succeeds exactly if the other one does,
    with the same bytes. -/
theorem encodeRef_eq_ok_iff (r : ValueRef) (bytes : List UInt8) :
    encodeRef r = .ok bytes ↔ encode r.denotes = .ok bytes := by
  have hwritten (h : Fits 0 r.denotes) : encodeRef r = encode r.denotes := by
    rw [encodeRef, encode, encodingCapacity_eq h, Encoder.valueRef_eq]
  constructor
  · intro h
    obtain ⟨_, -, hrun⟩ := bind_eq_ok.mp h
    obtain ⟨e, he, -⟩ := bind_eq_ok.mp hrun
    rw [Encoder.valueRef_eq] at he
    rw [← hwritten ((Encoder.value_eq_ok_iff _ _ _).mp he).1]
    exact h
  · intro h
    rw [hwritten (encode_eq_ok h).1]
    exact h

/-! ## The buffer -/

theorem encodingCapacities_owned (rs : List ValueRef) (total depth c : Nat)
    (hr : ∀ r ∈ rs, ∀ c, encodingCapacity r depth = .ok c → ownedCapacity r.denotes depth = .ok c)
    (h : encodingCapacities total rs depth = .ok c) :
    ownedCapacities total (ValueRef.denoteAll rs) depth = .ok c := by
  induction rs generalizing total with
  | nil => exact h
  | cons r rs ih =>
    rw [List.forall_mem_cons] at hr
    obtain ⟨one, hone, h⟩ := bind_eq_ok.mp h
    obtain ⟨sum, hsum, h⟩ := bind_eq_ok.mp h
    rw [ValueRef.denoteAll, ownedCapacities, hr.1 one hone, ok_bind, hsum, ok_bind]
    exact ih sum hr.2 h

/-- Where the capacity pass of a borrowed value succeeds, that of the owned one returns the same. -/
theorem encodingCapacity_owned {depth c : Nat} (h : encodingCapacity r depth = .ok c) :
    ownedCapacity r.denotes depth = .ok c := by
  induction r generalizing depth c with
  | array rs ih =>
    rw [encodingCapacity] at h
    obtain ⟨hdepth, h⟩ := ite_error_eq_ok.mp h
    rw [ValueRef.denotes, ownedCapacity, if_neg hdepth]
    exact encodingCapacities_owned rs 9 _ c (fun r hr _ hc => ih r hr hc) h
  | variant tag r ih =>
    rw [encodingCapacity] at h
    obtain ⟨hdepth, h⟩ := ite_error_eq_ok.mp h
    obtain ⟨tagged, htagged, h⟩ := bind_eq_ok.mp h
    obtain ⟨inner, hinner, h⟩ := bind_eq_ok.mp h
    obtain ⟨rfl, -⟩ := bytesCapacity_eq_ok htagged
    rw [ValueRef.denotes, ownedCapacity, if_neg hdepth, ih hinner, ok_bind]
    exact h
  | _ =>
    rw [encodingCapacity] at h
    exact (ite_error_eq_ok.mp h).2

/-- The value with its outermost node borrowed. -/
def ValueRef.opened : ValueRef → ValueRef
  | .owned (.array vs) | .value (.array vs) => .array (vs.map .owned)
  | .owned (.variant tag v) | .value (.variant tag v) => .variant tag (.owned v)
  | r => r

theorem ValueRef.denotes_opened (r : ValueRef) : r.opened.denotes = r.denotes := by
  have howned (vs : List Value) : denoteAll (vs.map .owned) = vs := by
    rw [denoteAll_eq, List.map_map]
    exact List.map_id vs
  cases r with
  | owned v | value v => cases v <;> simp [opened, denotes, howned]
  | _ => rfl

namespace Encoder

/-- `OutputDuring e r bytes`: while the encoder `e` writes `r`, its output is `bytes` at some time.
    The bytes of a header, a tag or a scalar come one after the other, and the run may fail
    later on. -/
inductive OutputDuring : Encoder → ValueRef → List UInt8 → Prop where
  | start (e : Encoder) (r : ValueRef) : OutputDuring e r e.output
  | written {e done : Encoder} {r : ValueRef} {bytes : List UInt8} (h : e.valueRef r = .ok done)
      (hfrom : e.output <+: bytes) (hto : bytes <+: done.output) : OutputDuring e r bytes
  | header {e opened : Encoder} {r : ValueRef} {rs : List ValueRef} {bytes : List UInt8}
      (hr : r.opened = .array rs) (h : e.writeArrayHeader rs.length = .ok opened)
      (hfrom : e.output <+: bytes) (hto : bytes <+: opened.output) : OutputDuring e r bytes
  | item {e opened done : Encoder} {r next : ValueRef} {front rest : List ValueRef}
      {bytes : List UInt8} (hr : r.opened = .array (front ++ next :: rest))
      (hopened : e.writeArrayHeader (front ++ next :: rest).length = .ok opened)
      (hfront : opened.arrayRef 0 front = .ok done)
      (h : OutputDuring (done.push (.index front.length)) next bytes) : OutputDuring e r bytes
  | tag {e : Encoder} {r inner : ValueRef} {tag bytes : List UInt8}
      (hr : r.opened = .variant tag inner) (hfrom : e.output <+: bytes)
      (hto : bytes <+: (e.extend (variantHeader tag)).output) : OutputDuring e r bytes
  | inner {e : Encoder} {r inner : ValueRef} {tag bytes : List UInt8}
      (hr : r.opened = .variant tag inner)
      (h : OutputDuring ((e.extend (variantHeader tag)).push (.variant tag)) inner bytes) :
      OutputDuring e r bytes

theorem extend_length (e : Encoder) (bs : List UInt8) :
    (e.extend bs).output.length = e.output.length + bs.length := List.length_append

theorem variantHeader_length (tag : List UInt8) : (variantHeader tag).length = 2 + tag.length := by
  simp only [variantHeader, List.length_append, List.length_cons, List.length_nil]

/-- The output never grows by more than the capacity pass counts. -/
theorem OutputDuring.length_le {e : Encoder} {bytes : List UInt8} (h : OutputDuring e r bytes) :
    bytes.length ≤ e.output.length + demand r.denotes := by
  induction h with
  | start => exact Nat.le_add_right ..
  | @written e done r bytes h _ hto =>
    rw [valueRef_eq, value_eq_ok_iff] at h
    obtain ⟨-, rfl⟩ := h
    have hle := hto.length_le
    rw [extend_length] at hle
    exact hle.trans (Nat.add_le_add_left (wire_length_le_demand _) _)
  | @header e opened r rs bytes hr h _ hto =>
    obtain ⟨-, -, rfl⟩ := writeArrayHeader_eq_ok_iff.mp h
    have hle := hto.length_le
    have hheader := arrayHeader_length_le rs.length
    rw [extend_length] at hle
    rw [← r.denotes_opened, hr, ValueRef.denotes, demand]
    omega
  | @item e opened done r next front rest bytes hr hopened hfront _ ih =>
    obtain ⟨-, -, rfl⟩ := writeArrayHeader_eq_ok_iff.mp hopened
    rw [arrayRef_eq front _ _ fun r _ e => e.valueRef_eq r,
      arrayItems_eq_ok_iff _ fun v _ => value_eq_ok_iff v] at hfront
    obtain ⟨-, rfl⟩ := hfront
    have hheader := arrayHeader_length_le (front ++ next :: rest).length
    have hwires := wires_length_le_demands (ValueRef.denoteAll front)
      fun v _ => wire_length_le_demand v
    rw [push, extend_length, extend_length] at ih
    rw [← r.denotes_opened, hr, ValueRef.denotes, demand, ValueRef.denoteAll_eq, List.map_append,
      demands_append, ← ValueRef.denoteAll_eq, List.map_cons, demands]
    omega
  | @tag e r inner tag bytes hr _ hto =>
    have hle := hto.length_le
    rw [extend_length, variantHeader_length] at hle
    rw [← r.denotes_opened, hr, ValueRef.denotes, demand]
    omega
  | @inner e r inner tag bytes hr _ ih =>
    rw [push, extend_length, variantHeader_length] at ih
    rw [← r.denotes_opened, hr, ValueRef.denotes, demand]
    omega

end Encoder

/-- No encoder outgrows the buffer it reserved: neither the bytes it returns nor its output at any
    time of the run, even of a run that fails, are longer than the capacity. -/
theorem output_length_le_capacity :
    (∀ v bytes, encode v = .ok bytes →
      ∃ capacity, ownedCapacity v 0 = .ok capacity ∧ bytes.length ≤ capacity) ∧
    (∀ v capacity, ownedCapacity v 0 = .ok capacity → ∀ output,
      Encoder.OutputDuring ⟨[], []⟩ (.owned v) output → output.length ≤ capacity) ∧
    (∀ r bytes, encodeRef r = .ok bytes →
      ∃ capacity, encodingCapacity r 0 = .ok capacity ∧ bytes.length ≤ capacity) ∧
    ∀ r capacity, encodingCapacity r 0 = .ok capacity → ∀ output,
      Encoder.OutputDuring ⟨[], []⟩ r output → output.length ≤ capacity := by
  have hduring (r : ValueRef) (capacity : Nat) (h : ownedCapacity r.denotes 0 = .ok capacity)
      (output : List UInt8) (houtput : Encoder.OutputDuring ⟨[], []⟩ r output) :
      output.length ≤ capacity := by
    obtain ⟨rfl, -⟩ := ownedCapacity_eq_ok _ _ _ h
    simpa using houtput.length_le
  refine ⟨fun v bytes h => ?_, fun v => hduring (.owned v), fun r bytes h => ?_,
    fun r capacity h => hduring r capacity (encodingCapacity_owned h)⟩
  · obtain ⟨-, rfl⟩ := encode_eq_ok h
    obtain ⟨capacity, hcapacity, -⟩ := bind_eq_ok.mp h
    obtain ⟨rfl, -⟩ := ownedCapacity_eq_ok _ _ _ hcapacity
    exact ⟨_, hcapacity, wire_length_le_demand v⟩
  · obtain ⟨capacity, hcapacity, h⟩ := bind_eq_ok.mp h
    obtain ⟨e, he, h⟩ := bind_eq_ok.mp h
    cases h
    exact ⟨capacity, hcapacity, hduring r _ (encodingCapacity_owned hcapacity) _
      (.written he List.nil_prefix (List.prefix_refl _))⟩

end Foks.Snowpack
