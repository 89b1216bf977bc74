/-
  Chain links read and written (`foks-proto`, `identity/chain.rs`): the writers of `LinkBuilder`
  against the readers of `Identity`.

  A reader and a writer belong together (`Reads`) when the reader returns what the writer wrote,
  and the writer gives back what was read. The second holds only for values without an empty blob:
  the base of a rational is written as null when it has no bytes, but it is also read from an empty
  blob. Of the eight fields of a group change the readers look at six; the other two are written as
  null and can be anything in a link that is accepted.
-/
import Foks.Proto.Host
import Foks.Proto.LinkBuilder

namespace Foks.Proto

open Foks.Lib Foks.Snowpack Foks.Crypto

mutual

/-- Every blob of the value has a byte. -/
def noEmptyBlob : Value → Bool
  | .binary bytes => !bytes.isEmpty
  | .array values => noEmptyBlobs values
  | .variant _ value => noEmptyBlob value
  | _ => true

def noEmptyBlobs : List Value → Bool
  | [] => true
  | value :: values => noEmptyBlob value && noEmptyBlobs values

end

@[simp] theorem noEmptyBlob_array (values : List Value) :
    noEmptyBlob (.array values) = true ↔ ∀ value ∈ values, noEmptyBlob value = true := by
  rw [noEmptyBlob]
  induction values with
  | nil => simp [noEmptyBlobs]
  | cons value values ih => simp [noEmptyBlobs, ih]

/-! ## Fields and what is written for them -/

/-- A field that the codec takes, without an empty blob. -/
def PlainField (v : Value) : Prop := noEmptyBlob v = true ∧ ∃ depth, Fits depth v

/-- What is written for a field that was read: it has no empty blob, and it is the field itself if
    that is plain. -/
def Mirrors (field written : Value) : Prop :=
  noEmptyBlob written = true ∧ (PlainField field → written = field)

variable {v : Value} {tag : List UInt8}

namespace Mirrors

theorem self (h : noEmptyBlob v = true) : Mirrors v v := ⟨h, fun _ => rfl⟩

theorem null : Mirrors .null .null := self (by simp [noEmptyBlob])

theorem unsigned (n : UInt64) : Mirrors (.unsigned n) (.unsigned n) := self (by simp [noEmptyBlob])

theorem variant {w : Value} (h : Mirrors v w) : Mirrors (.variant tag v) (.variant tag w) := by
  refine ⟨by simpa [noEmptyBlob] using h.1, fun ⟨hfilled, depth, hfits⟩ => ?_⟩
  rw [h.2 ⟨by simpa [noEmptyBlob] using hfilled, depth + 1, hfits.2.2⟩]

theorem all {fields written : List Value} (h : List.Forall₂ Mirrors fields written) :
    (∀ w ∈ written, noEmptyBlob w = true) ∧ ((∀ v ∈ fields, PlainField v) → written = fields) := by
  induction h with
  | nil => simp
  | @cons v w vs ws hhead _ ih =>
    refine ⟨List.forall_mem_cons.mpr ⟨hhead.1, ih.1⟩, fun hplain => ?_⟩
    rw [List.forall_mem_cons] at hplain
    rw [hhead.2 hplain.1, ih.2 hplain.2]

theorem array {fields written : List Value} (h : List.Forall₂ Mirrors fields written) :
    Mirrors (.array fields) (.array written) := by
  refine ⟨(noEmptyBlob_array _).mpr (all h).1, fun ⟨hfilled, depth, hfits⟩ => ?_⟩
  rw [noEmptyBlob_array] at hfilled
  have hall := (fitsAll_iff _ _).mp hfits.2.2.2
  rw [(all h).2 fun v hv => ⟨hfilled v hv, depth + 1, hall v hv⟩]

/-- The codec takes no empty array, so one that is written as null was not plain. -/
theorem list {fields written : List Value} (h : List.Forall₂ Mirrors fields written) :
    Mirrors (.array fields) (listValue written) := by
  cases h with
  | nil => exact ⟨by simp [listValue, noEmptyBlob], fun ⟨_, _, hfits⟩ => absurd rfl hfits.2.1⟩
  | cons hhead htail => exact array (.cons hhead htail)

theorem pair {a b a' b' : Value} (ha : Mirrors a a') (hb : Mirrors b b') :
    Mirrors (.array [a, b]) (.array [a', b']) :=
  array (.cons ha (.cons hb .nil))

end Mirrors

/-! ## Readers with their writers -/

/-- The reader returns what the writer wrote of the values it is for, and nothing else; and the
    writer gives back a field that was read if it is plain. -/
structure Reads {α : Type} (read : Value → Except Error α) (write : α → Value)
    (Typed : α → Prop) : Prop where
  read_write : ∀ a, Typed a → read (write a) = .ok a
  write_read : ∀ v a, read v = .ok a → Typed a ∧ Mirrors v (write a)

namespace Reads

variable {α : Type} {read : Value → Except Error α} {write : α → Value} {Typed : α → Prop}

theorem mirrors (h : Reads read write Typed) {a : α} (hread : read v = .ok a) :
    Mirrors v (write a) :=
  (h.write_read v a hread).2

/-- A reader that takes exactly what is written. -/
theorem of_iff (hread : ∀ v a, read v = .ok a ↔ v = write a ∧ Typed a)
    (hfilled : ∀ a, noEmptyBlob (write a) = true) : Reads read write Typed where
  read_write := fun a htyped => (hread _ a).mpr ⟨rfl, htyped⟩
  write_read := by
    intro v a h
    obtain ⟨rfl, htyped⟩ := (hread v a).mp h
    exact ⟨htyped, .self (hfilled a)⟩

theorem option (h : Reads read write Typed) (hnull : ∀ a, write a ≠ .null) :
    Reads (fun v => Proto.option v read) (fun o => o.elim .null write)
      (fun o => ∀ a ∈ o, Typed a) where
  read_write := by
    intro o htyped
    cases o with
    | none => rfl
    | some a =>
      rw [Option.elim_some, Proto.option, if_neg (hnull a), h.read_write a (htyped a rfl)]
      rfl
  write_read := by
    intro v o hread
    rcases ite_eq_ok hread with ⟨rfl, hread⟩ | ⟨-, hread⟩
    · cases hread
      exact ⟨nofun, .null⟩
    · obtain ⟨b, hb, rfl⟩ := map_eq_ok.mp hread
      obtain ⟨htyped, hmirrors⟩ := h.write_read v b hb
      exact ⟨fun a ha => Option.mem_some_iff.mp ha ▸ htyped, hmirrors⟩

theorem list (h : Reads read write Typed) :
    Reads (fun v => Proto.list v read) (fun as => listValue (as.map write))
      (fun as => ∀ a ∈ as, Typed a) where
  read_write := fun as htyped => list_listValue fun a ha => h.read_write a (htyped a ha)
  write_read := by
    intro v as hread
    rcases list_eq_ok.mp hread with ⟨rfl, rfl⟩ | ⟨values, rfl, hread⟩
    · exact ⟨nofun, .null⟩
    · refine ⟨fun a ha => ?_, ?_⟩
      · obtain ⟨value, -, hvalue⟩ := exists_of_mem_mapM hread ha
        exact (h.write_read value a hvalue).1
      · exact .list (List.forall₂_map_right_iff.mpr
          ((mapM_eq_ok_iff.mp hread).imp fun _ _ => h.mirrors))

end Reads

theorem optionBlob_map {α : Type} (bytes : α → List UInt8) (o : Option α) :
    optionBlob (o.map bytes) = o.elim .null fun a => .binary (bytes a) := by
  cases o <;> rfl

theorem Reads.optionBlob {α : Type} {read : Value → Except Error α} {bytes : α → List UInt8}
    {Typed : α → Prop} (h : Reads read (fun a => .binary (bytes a)) Typed) :
    Reads (fun v => Proto.option v read) (fun o => Proto.optionBlob (o.map bytes))
      (fun o => ∀ a ∈ o, Typed a) := by
  simp only [optionBlob_map]
  exact h.option fun _ => Value.noConfusion

/-! ## Fields -/

theorem reads_unsigned : Reads unsigned .unsigned (fun _ => True) :=
  .of_iff (fun v n => by rw [unsigned_eq_ok, and_true]) fun n => by simp [noEmptyBlob]

theorem reads_hash (kind : String) :
    Reads (fun v => fixedBlob 32 v kind) (fun hash : Hash => .binary hash.bytes)
      (fun _ => True) := by
  refine .of_iff (fun v hash => by rw [fixedBlob_eq_ok, and_true]) fun hash => ?_
  have hlen := hash.size_eq
  cases hbytes : hash.bytes with
  | nil => simp [hbytes] at hlen
  | cons byte bytes => simp [noEmptyBlob]

theorem entity_eq_ok {id : EntityId} : entity v = .ok id ↔ v = .binary id.bytes := by
  unfold entity
  simp only [bind_eq_ok, binary_eq_ok, EntityId.fromBytes_eq_ok]
  constructor
  · rintro ⟨bytes, rfl, rfl⟩
    rfl
  · rintro rfl
    exact ⟨id.bytes, rfl, rfl⟩

/-- A reader that takes the identifiers of some kinds. -/
theorem reads_entityWhere {read : Value → Except Error EntityId} {Typed : EntityId → Prop}
    (h : ∀ v id, read v = .ok id ↔ v = .binary id.bytes ∧ Typed id) :
    Reads read (fun id => .binary id.bytes) Typed := by
  refine .of_iff h fun id => ?_
  have hpos := id.bytes_length_pos
  cases hbytes : id.bytes with
  | nil => simp [hbytes] at hpos
  | cons byte bytes => simp [noEmptyBlob]

theorem reads_entity : Reads entity (fun id => .binary id.bytes) (fun _ => True) :=
  reads_entityWhere fun v id => by rw [entity_eq_ok, and_true]

theorem reads_entityOf (kind : UInt8) :
    Reads (entityOf kind) (fun id => .binary id.bytes) (fun id => id.entityType = kind) := by
  refine reads_entityWhere fun v id => ?_
  simp only [entityOf, bind_eq_ok, entity_eq_ok, EntityId.requireType_eq_ok]
  constructor
  · rintro ⟨read, hvalue, hkind, rfl⟩
    exact ⟨hvalue, hkind⟩
  · rintro ⟨hvalue, hkind⟩
    exact ⟨id, hvalue, hkind, rfl⟩

/-- The kinds of the devices and keys that can be members of a user. -/
def IsUserMember (id : EntityId) : Prop :=
  id.entityType = entityDevice ∨ id.entityType = entityYubi ∨ id.entityType = entityBackupKey ∨
    id.entityType = entityBotTokenKey

instance (id : EntityId) : Decidable (IsUserMember id) := inferInstanceAs (Decidable (_ ∨ _))

theorem reads_userMemberEntity :
    Reads userMemberEntity (fun id => .binary id.bytes) IsUserMember := by
  refine reads_entityWhere fun v id => ?_
  simp only [userMemberEntity, bind_eq_ok, entity_eq_ok]
  constructor
  · rintro ⟨read, hvalue, hread⟩
    rcases ite_eq_ok hread with ⟨hkind, hread⟩ | ⟨-, hread⟩
    · cases hread
      exact ⟨hvalue, hkind⟩
    · cases hread
  · rintro ⟨hvalue, hkind⟩
    exact ⟨id, hvalue, if_pos hkind⟩

/-! ## Integers and roles -/

/-- A signed integer, split by its sign. -/
def integerValue (n : Int64) : Value :=
  if n.toInt < 0 then .negative n else .unsigned (UInt64.ofNat n.toInt.toNat)

theorem reads_integer : Reads integer integerValue (fun _ => True) where
  read_write := by
    intro n _
    unfold integerValue
    split
    · rfl
    · rename_i hneg
      have hlt := n.toInt_lt
      have hnat : (UInt64.ofNat n.toInt.toNat).toNat = n.toInt.toNat :=
        toNat_ofNat64 (by omega)
      rw [integer, hnat, if_pos (by omega)]
      congr 1
      apply Int64.toInt.inj
      rw [Int64.toInt_ofNat_of_lt (by omega)]
      omega
  write_read := by
    intro v n hread
    refine ⟨trivial, by unfold integerValue; split <;> simp [noEmptyBlob], ?_⟩
    rintro ⟨-, depth, hfits⟩
    cases v with
    | unsigned value =>
      obtain ⟨hlt, hn⟩ := ite_eq_ok hread |>.resolve_right fun h => by cases h.2
      cases hn
      have hint : (Int64.ofNat value.toNat).toInt = value.toNat := Int64.toInt_ofNat_of_lt hlt
      rw [integerValue, hint, if_neg (by omega), Int.toNat_natCast, UInt64.ofNat_toNat]
    | negative value =>
      cases hread
      rw [integerValue, if_pos hfits.2]
    | _ => cases hread

theorem role_toValue_member (visibility : Int16) :
    (Role.member visibility).toValue =
      .array [.unsigned 1, .variant [0x30] (integerValue visibility.toInt64)] := by
  have hint : visibility.toInt64.toInt = visibility.toInt := Int16.toInt_toInt64 visibility
  rw [integerValue, hint]
  rfl

theorem int16?_toInt64 (visibility : Int16) : int16? visibility.toInt64 = some visibility := by
  have hlo := visibility.le_toInt
  have hhi := visibility.toInt_lt
  rw [int16?, Int16.toInt_toInt64, if_pos (by omega), Int16.toInt16_toInt64]

theorem int16?_eq_some {n : Int64} {visibility : Int16} (h : int16? n = some visibility) :
    n = visibility.toInt64 := by
  unfold int16? at h
  split at h
  · rename_i hrange
    cases h
    apply Int64.toInt.inj
    rw [Int16.toInt_toInt64, Int64.toInt_toInt16, Int.bmod_eq_of_le (by omega) (by omega)]
  · cases h

/-! ## Positional fields -/

section

variable {v : Value} {fields : List Value}

theorem array_two (h : array v 2 = .ok fields) : ∃ a b, v = .array [a, b] ∧ fields = [a, b] := by
  obtain ⟨rfl, hlen⟩ := array_eq_ok.mp h
  match fields, hlen with
  | [a, b], _ => exact ⟨a, b, rfl, rfl⟩

theorem array_three (h : array v 3 = .ok fields) :
    ∃ a b c, v = .array [a, b, c] ∧ fields = [a, b, c] := by
  obtain ⟨rfl, hlen⟩ := array_eq_ok.mp h
  match fields, hlen with
  | [a, b, c], _ => exact ⟨a, b, c, rfl, rfl⟩

theorem array_four (h : array v 4 = .ok fields) :
    ∃ a b c d, v = .array [a, b, c, d] ∧ fields = [a, b, c, d] := by
  obtain ⟨rfl, hlen⟩ := array_eq_ok.mp h
  match fields, hlen with
  | [a, b, c, d], _ => exact ⟨a, b, c, d, rfl, rfl⟩

theorem array_five (h : array v 5 = .ok fields) :
    ∃ a b c d e, v = .array [a, b, c, d, e] ∧ fields = [a, b, c, d, e] := by
  obtain ⟨rfl, hlen⟩ := array_eq_ok.mp h
  match fields, hlen with
  | [a, b, c, d, e], _ => exact ⟨a, b, c, d, e, rfl, rfl⟩

end

theorem reads_role : Reads role Role.toValue (fun _ => True) where
  read_write := by
    intro r _
    cases r with
    | member visibility =>
      have hinteger := reads_integer.read_write visibility.toInt64 trivial
      simp [role_toValue_member, role, array, unsigned, variant, hinteger, int16?_toInt64, okOr]
    | none | admin | owner => rfl
  write_read := by
    intro v r hread
    refine ⟨trivial, ?_⟩
    obtain ⟨fields, hfields, hread⟩ := bind_eq_ok.mp hread
    obtain ⟨kind, payload, rfl, rfl⟩ := array_two hfields
    obtain ⟨roleType, hkind, hread⟩ := bind_eq_ok.mp hread
    obtain rfl := unsigned_eq_ok.mp hkind
    rcases ite_eq_ok hread with ⟨hplain, hread⟩ | ⟨-, hread⟩
    · obtain ⟨hnone, hread⟩ := ite_error_eq_ok.mp hread
      obtain rfl : payload = .variantNone := not_not.mp hnone
      cases hread
      rcases hplain with rfl | rfl | rfl <;> exact .self (by decide)
    · rcases ite_eq_ok hread with ⟨rfl, hread⟩ | ⟨-, hread⟩
      · obtain ⟨inner, hinner, hread⟩ := bind_eq_ok.mp hread
        obtain ⟨n, hn, hread⟩ := bind_eq_ok.mp hread
        obtain ⟨visibility, hvisibility, hread⟩ := bind_eq_ok.mp hread
        cases hread
        obtain rfl : payload = .variant [0x30] inner := variant_eq_ok.mp hinner
        rw [role_toValue_member, ← int16?_eq_some (okOr_eq_ok.mp hvisibility)]
        exact .pair (.unsigned 1) (reads_integer.mirrors hn).variant
      · cases hread

/-! ## Rationals -/

theorem rationalValue_eq (value : Rational) :
    rationalValue value = .array [.bool value.infinity,
      if value.base.isEmpty then .null else .binary value.base, integerValue value.exponent] := rfl

theorem reads_rational : Reads rational rationalValue (fun _ => True) where
  read_write := by
    intro value _
    obtain ⟨infinity, base, exponent⟩ := value
    have hexponent := reads_integer.read_write exponent trivial
    cases base <;> simp [rationalValue_eq, rational, array, boolean, binary, hexponent]
  write_read := by
    intro v value hread
    refine ⟨trivial, ?_⟩
    obtain ⟨fields, hfields, hread⟩ := bind_eq_ok.mp hread
    obtain ⟨a, b, c, rfl, rfl⟩ := array_three hfields
    obtain ⟨infinity, hinfinity, hread⟩ := bind_eq_ok.mp hread
    have ha : a = .bool infinity := by
      cases a with
      | bool b => rw [Except.ok.inj hinfinity]
      | _ => cases hinfinity
    rw [rationalValue_eq, ha]
    cases b with
    | null =>
      obtain ⟨base, hbase, hread⟩ := bind_eq_ok.mp hread
      obtain ⟨exponent, hexponent, hread⟩ := bind_eq_ok.mp hread
      cases hbase
      cases hread
      exact .array (.cons (.self (by simp [noEmptyBlob])) (.cons .null
        (.cons (reads_integer.mirrors hexponent) .nil)))
    | binary bytes =>
      obtain ⟨base, hbase, hread⟩ := bind_eq_ok.mp hread
      obtain ⟨exponent, hexponent, hread⟩ := bind_eq_ok.mp hread
      cases hbase
      cases hread
      have hbytes : Mirrors (.binary bytes) (if bytes.isEmpty then .null else .binary bytes) := by
        cases bytes with
        | nil => exact ⟨by decide, fun hplain => absurd hplain.1 (by simp [noEmptyBlob])⟩
        | cons byte bytes => exact .self (by simp [noEmptyBlob])
      exact .array (.cons (.self (by simp [noEmptyBlob])) (.cons hbytes
        (.cons (reads_integer.mirrors hexponent) .nil)))
    | _ => cases hread

theorem reads_rationalRange : Reads rationalRange rationalRangeValue (fun _ => True) where
  read_write := by
    intro range _
    exact bind_of_ok rfl (bind_of_ok (reads_rational.read_write _ trivial)
      (bind_of_ok (reads_rational.read_write _ trivial) rfl))
  write_read := by
    intro v range hread
    obtain ⟨fields, hfields, hread⟩ := bind_eq_ok.mp hread
    obtain ⟨a, b, rfl, rfl⟩ := array_two hfields
    obtain ⟨low, hlow, hread⟩ := bind_eq_ok.mp hread
    obtain ⟨high, hhigh, hread⟩ := bind_eq_ok.mp hread
    cases hread
    exact ⟨trivial, .pair (reads_rational.mirrors hlow) (reads_rational.mirrors hhigh)⟩

/-! ## Changes -/

@[simp] theorem fixedBlob_bytes {n : Nat} (blob : FixedBytes n) (kind : String) :
    fixedBlob n (.binary blob.bytes) kind = .ok blob := fixedBlob_eq_ok.mpr rfl

/-- A payload under a tag. -/
theorem Reads.tagged {α β : Type} {read : Value → Except Error α} {write : α → Value}
    {Typed : α → Prop} (h : Reads read write Typed) {payload : Value} {make : α → β} {b : β}
    (hread : (do
      let inner ← variant payload tag
      let a ← read inner
      Except.ok (make a)) = .ok b) :
    ∃ a, b = make a ∧ Mirrors payload (.variant tag (write a)) := by
  obtain ⟨inner, hinner, hread⟩ := bind_eq_ok.mp hread
  obtain ⟨a, ha, hread⟩ := bind_eq_ok.mp hread
  cases hread
  obtain rfl := variant_eq_ok.mp hinner
  exact ⟨a, rfl, (h.mirrors ha).variant⟩

theorem reads_changeMetadata : Reads changeMetadata changeMetadataValue (fun _ => True) where
  read_write := by
    intro metadata _
    cases metadata with
    | deviceName commitment | username commitment | eldest commitment | teamName commitment =>
      refine bind_of_ok rfl (bind_of_ok rfl (bind_of_ok rfl ?_))
      simp [array]
    | teamIndexRange range =>
      refine bind_of_ok rfl (bind_of_ok rfl (bind_of_ok rfl ?_))
      exact bind_of_ok (reads_rationalRange.read_write range trivial) rfl
    | memberLoadFloor floor =>
      refine bind_of_ok rfl (bind_of_ok rfl (bind_of_ok rfl ?_))
      exact bind_of_ok (reads_role.read_write floor trivial) rfl
  write_read := by
    intro v metadata hread
    refine ⟨trivial, ?_⟩
    obtain ⟨fields, hfields, hread⟩ := bind_eq_ok.mp hread
    obtain ⟨kind, payload, rfl, rfl⟩ := array_two hfields
    obtain ⟨changeType, hkind, hcases⟩ := bind_eq_ok.mp hread
    obtain rfl := unsigned_eq_ok.mp hkind
    rcases ite_eq_ok hcases with ⟨rfl, h⟩ | ⟨-, hcases⟩
    · obtain ⟨commitment, rfl, hpayload⟩ := (reads_hash _).tagged h
      exact .pair (.unsigned 0) hpayload
    rcases ite_eq_ok hcases with ⟨rfl, h⟩ | ⟨-, hcases⟩
    · obtain ⟨commitment, rfl, hpayload⟩ := (reads_hash _).tagged h
      exact .pair (.unsigned 1) hpayload
    rcases ite_eq_ok hcases with ⟨rfl, h⟩ | ⟨-, hcases⟩
    · obtain ⟨inner, hinner, h⟩ := bind_eq_ok.mp h
      obtain ⟨eldest, heldest, h⟩ := bind_eq_ok.mp h
      obtain ⟨commitment, hblob, h⟩ := bind_eq_ok.mp h
      cases h
      obtain ⟨rfl, hlen⟩ := array_eq_ok.mp heldest
      obtain ⟨only, rfl⟩ := List.length_eq_one_iff.mp hlen
      obtain rfl := variant_eq_ok.mp hinner
      exact .pair (.unsigned 2) (.variant (.array (.cons ((reads_hash _).mirrors hblob) .nil)))
    rcases ite_eq_ok hcases with ⟨rfl, h⟩ | ⟨-, hcases⟩
    · obtain ⟨commitment, rfl, hpayload⟩ := (reads_hash _).tagged h
      exact .pair (.unsigned 3) hpayload
    rcases ite_eq_ok hcases with ⟨rfl, h⟩ | ⟨-, hcases⟩
    · obtain ⟨range, rfl, hpayload⟩ := reads_rationalRange.tagged h
      exact .pair (.unsigned 4) hpayload
    rcases ite_eq_ok hcases with ⟨rfl, h⟩ | ⟨-, h⟩
    · obtain ⟨floor, rfl, hpayload⟩ := reads_role.tagged h
      exact .pair (.unsigned 5) hpayload
    · cases h

theorem reads_userMemberKeys : Reads userMemberKeys userMemberKeysValue (fun _ => True) where
  read_write := by
    intro keys _
    cases keys with
    | none => rfl
    | user fingerprint subkey =>
      have hsubkey := reads_entity.optionBlob.read_write subkey (fun _ _ => trivial)
      simp [userMemberKeys, userMemberKeysValue, array, unsigned, variant, hsubkey]
  write_read := by
    intro v keys hread
    refine ⟨trivial, ?_⟩
    obtain ⟨fields, hfields, hread⟩ := bind_eq_ok.mp hread
    obtain ⟨kind, payload, rfl, rfl⟩ := array_two hfields
    obtain ⟨keyType, hkind, hcases⟩ := bind_eq_ok.mp hread
    obtain rfl := unsigned_eq_ok.mp hkind
    rcases ite_eq_ok hcases with ⟨rfl, h⟩ | ⟨-, hcases⟩
    · obtain ⟨hnone, h⟩ := ite_error_eq_ok.mp h
      obtain rfl : payload = .variantNone := not_not.mp hnone
      cases h
      exact .self (by decide)
    rcases ite_eq_ok hcases with ⟨rfl, h⟩ | ⟨-, h⟩
    · obtain ⟨inner, hinner, h⟩ := bind_eq_ok.mp h
      obtain ⟨user, huser, h⟩ := bind_eq_ok.mp h
      obtain ⟨fingerprint, hfingerprint, h⟩ := bind_eq_ok.mp h
      obtain ⟨subkey, hsubkey, h⟩ := bind_eq_ok.mp h
      cases h
      obtain ⟨a, b, rfl, rfl⟩ := array_two huser
      obtain rfl := variant_eq_ok.mp hinner
      exact .pair (.unsigned 1) (.variant (.pair ((reads_hash _).mirrors hfingerprint)
        (reads_entity.optionBlob.mirrors hsubkey)))
    · cases h

def UserMemberChange.Typed (change : UserMemberChange) : Prop :=
  IsUserMember change.entity ∧ ∀ host ∈ change.scopedHost, host.entityType = entityHost

theorem reads_userMemberChange :
    Reads userMemberChange userMemberChangeValue UserMemberChange.Typed where
  read_write := by
    intro change htyped
    have hhost := (reads_entityOf entityHost).optionBlob.read_write _ htyped.2
    simp [userMemberChange, userMemberChangeValue, array, reads_userMemberKeys.read_write,
      reads_role.read_write, reads_userMemberEntity.read_write _ htyped.1, hhost]
  write_read := by
    intro v change hread
    obtain ⟨fields, hfields, h⟩ := bind_eq_ok.mp hread
    obtain ⟨member, hmember, h⟩ := bind_eq_ok.mp h
    obtain ⟨fqe, hfqe, h⟩ := bind_eq_ok.mp h
    obtain ⟨keys, hkeys, h⟩ := bind_eq_ok.mp h
    obtain ⟨destination, hdestination, h⟩ := bind_eq_ok.mp h
    obtain ⟨id, hid, h⟩ := bind_eq_ok.mp h
    obtain ⟨scopedHost, hhost, h⟩ := bind_eq_ok.mp h
    obtain ⟨sourceRole, hsource, h⟩ := bind_eq_ok.mp h
    cases h
    obtain ⟨a, b, rfl, rfl⟩ := array_two hfields
    obtain ⟨c, d, e, rfl, rfl⟩ := array_three hmember
    obtain ⟨f, g, rfl, rfl⟩ := array_two hfqe
    obtain ⟨hidTyped, hid⟩ := reads_userMemberEntity.write_read _ _ hid
    obtain ⟨hhostTyped, hhost⟩ := (reads_entityOf entityHost).optionBlob.write_read _ _ hhost
    exact ⟨⟨hidTyped, hhostTyped⟩, .pair (reads_role.mirrors hdestination) (.array
      (.cons (.pair hid hhost) (.cons (reads_role.mirrors hsource)
        (.cons (reads_userMemberKeys.mirrors hkeys) .nil))))⟩

/-! ## Readers of links -/

/-- The two fields that no reader looks at are null, and no blob is empty. -/
def UserLink.isPlain (link : UserLink) : Bool :=
  match link.groupFields with
  | .ok group =>
    decide (group.getD 4 .null = .null) && decide (group.getD 7 .null = .null) &&
      group.all noEmptyBlob
  | .error _ => false

section

variable {link : UserLink} {group : List Value}

theorem groupFields_eq_ok : link.groupFields = .ok group ↔
      decodeValue link.inner = .ok (.array [.unsigned 1, .variant [0x30] (.array group)]) ∧
        group.length = 8 := by
  constructor
  · intro h
    obtain ⟨inner, hinner, h⟩ := bind_eq_ok.mp h
    obtain ⟨fields, hfields, h⟩ := bind_eq_ok.mp h
    obtain ⟨_, hversion, h⟩ := bind_eq_ok.mp h
    obtain ⟨body, hbody, h⟩ := bind_eq_ok.mp h
    obtain ⟨a, b, rfl, rfl⟩ := array_two hfields
    obtain rfl : a = .unsigned 1 := expectUnsigned_eq_ok.mp hversion
    obtain rfl : b = .variant [0x30] body := variant_eq_ok.mp hbody
    obtain ⟨rfl, hlen⟩ := array_eq_ok.mp h
    exact ⟨hinner, hlen⟩
  · rintro ⟨hinner, hlen⟩
    refine bind_of_ok hinner (bind_of_ok (array_eq_ok.mpr ⟨rfl, rfl⟩) ?_)
    refine bind_eq_ok.mpr ⟨(), expectUnsigned_eq_ok.mpr rfl, ?_⟩
    exact bind_of_ok (variant_eq_ok.mpr rfl) (array_eq_ok.mpr ⟨rfl, hlen⟩)

theorem isPlain_iff (h : link.groupFields = .ok group) :
    link.isPlain = true ↔ group.getD 4 .null = .null ∧ group.getD 7 .null = .null ∧
      ∀ v ∈ group, noEmptyBlob v = true := by
  simp [UserLink.isPlain, h, and_assoc]

theorem groupFields_eight (h : link.groupFields = .ok group) :
    ∃ a b c d e f g i, group = [a, b, c, d, e, f, g, i] := by
  obtain ⟨-, hlen⟩ := groupFields_eq_ok.mp h
  match group, hlen with
  | [a, b, c, d, e, f, g, i], _ => exact ⟨a, b, c, d, e, f, g, i, rfl⟩

theorem groupFields_fits (h : link.groupFields = .ok group) :
    ∀ v ∈ group, ∃ depth, Fits depth v := by
  have hfits := (decodeValue_eq_ok.mp (groupFields_eq_ok.mp h).1).1.fits
  exact fun v hv => ⟨_, (fitsAll_iff _ _).mp hfits.2.2.2.2.1.2.2.2.2.2 v hv⟩

/-- A reader of links with the writer of their inner blob. A change that was read is written back
    as it stands in the link exactly if the link is plain. -/
structure ReadsLink {α : Type} (read : UserLink → Except Error α) (write : α → Value)
    (Typed : α → Prop) : Prop where
  read_write : ∀ link a, Typed a → decodeValue link.inner = .ok (write a) → read link = .ok a
  write_read : ∀ link a, read link = .ok a →
    ∃ v, decodeValue link.inner = .ok v ∧ (write a = v ↔ link.isPlain = true)

namespace ReadsLink

variable {α : Type} {read : UserLink → Except Error α} {write : α → Value} {Typed : α → Prop}

/-- An inner blob that encodes a value is decoded to that value if it is not too large. -/
theorem decodeValue_of_encodeValue {value : Value} {bytes : List UInt8}
    (h : encodeValue value = .ok bytes) :
    decodeValue bytes = .ok value ↔ value.size ≤ maximumDecodedValues := by
  obtain ⟨hfits, rfl⟩ := encode_eq_ok (mapError_eq_ok.mp h)
  rw [decodeValue_eq_ok]
  exact ⟨fun hcodable => hcodable.1.size_le, fun hsize => ⟨⟨hfits, hsize⟩, rfl⟩⟩

theorem built_iff (hread : ReadsLink read write Typed) {a : α} (ha : Typed a)
    (h : encodeValue (write a) = .ok link.inner) :
    read link = .ok a ↔ (write a).size ≤ maximumDecodedValues := by
  rw [← decodeValue_of_encodeValue h]
  constructor
  · intro hok
    obtain ⟨v, hv, -⟩ := hread.write_read link a hok
    obtain ⟨hcodable, hwire⟩ := decodeValue_eq_ok.mp hv
    -- the blob has one meaning, whether it is small enough to be decoded or not
    obtain rfl : v = write a :=
      encode_inj (hwire ▸ hcodable.encode_eq) (mapError_eq_ok.mp h)
    exact hv
  · exact hread.read_write link a ha

theorem reencoded_iff (hread : ReadsLink read write Typed) {a : α} (h : read link = .ok a) :
    encodeValue (write a) = .ok link.inner ↔ link.isPlain = true := by
  obtain ⟨v, hv, hplain⟩ := hread.write_read link a h
  obtain ⟨hcodable, hwire⟩ := decodeValue_eq_ok.mp hv
  rw [← hplain]
  constructor
  · intro hencode
    exact encode_inj (mapError_eq_ok.mp hencode) (hwire ▸ hcodable.encode_eq)
  · intro hwrite
    rw [hwrite, encodeValue_codable hcodable, hwire]

theorem inner_eq (hread : ReadsLink read write Typed) {other : UserLink} {a : α}
    (h : read link = .ok a) (hother : read other = .ok a) (hplain : link.isPlain = true)
    (hplain' : other.isPlain = true) : link.inner = other.inner := by
  have hlink := (hread.reencoded_iff h).mpr hplain
  rw [(hread.reencoded_iff hother).mpr hplain'] at hlink
  exact (Except.ok.inj hlink).symm

end ReadsLink

end

/-! ## Members of teams, and shared keys -/

/-- A member of a team signs with a key of a user or of a team. -/
def TeamMemberKeys.Typed (keys : TeamMemberKeys) : Prop :=
  keys.verifyKey.entityType = entityPukVerify ∨ keys.verifyKey.entityType = entityPtkVerify

theorem reads_optionRange : Reads (fun v => option v rationalRange)
    (fun o => o.elim .null rationalRangeValue) (fun o => ∀ range ∈ o, True) :=
  reads_rationalRange.option fun _ => Value.noConfusion

theorem reads_teamMemberKeys :
    Reads teamMemberKeys teamMemberKeysValue (fun o => ∀ keys ∈ o, keys.Typed) where
  read_write := by
    intro o htyped
    cases o with
    | none => rfl
    | some keys =>
      have hkind : ¬ (keys.verifyKey.entityType ≠ entityPukVerify ∧
          keys.verifyKey.entityType ≠ entityPtkVerify) :=
        not_and_or.mpr ((htyped keys rfl).imp not_not.mpr not_not.mpr)
      have hremoval (kind : String) := (reads_hash kind).optionBlob.read_write
        keys.removalKeyCommitment (fun _ _ => trivial)
      have hrange := reads_optionRange.read_write keys.indexRange (fun _ _ => trivial)
      simp only [teamMemberKeys, teamMemberKeysValue]
      simp [array, unsigned, variant, reads_entity.read_write, hkind, hremoval, hrange]
  write_read := by
    intro v o hread
    obtain ⟨fields, hfields, hread⟩ := bind_eq_ok.mp hread
    obtain ⟨kind, payload, rfl, rfl⟩ := array_two hfields
    obtain ⟨keyType, hkind, hcases⟩ := bind_eq_ok.mp hread
    obtain rfl := unsigned_eq_ok.mp hkind
    rcases ite_eq_ok hcases with ⟨rfl, h⟩ | ⟨-, hcases⟩
    · obtain ⟨hnone, h⟩ := ite_error_eq_ok.mp h
      obtain rfl : payload = .variantNone := not_not.mp hnone
      cases h
      exact ⟨by simp, .self (by decide)⟩
    rcases ite_eq_ok hcases with ⟨rfl, h⟩ | ⟨-, h⟩
    · obtain ⟨inner, hinner, h⟩ := bind_eq_ok.mp h
      obtain ⟨team, hteam, h⟩ := bind_eq_ok.mp h
      obtain ⟨verifyKey, hverify, h⟩ := bind_eq_ok.mp h
      obtain ⟨hsigns, h⟩ := ite_error_eq_ok.mp h
      obtain ⟨fingerprint, hfingerprint, h⟩ := bind_eq_ok.mp h
      obtain ⟨generation, hgeneration, h⟩ := bind_eq_ok.mp h
      obtain ⟨removal, hremoval, h⟩ := bind_eq_ok.mp h
      obtain ⟨range, hrange, h⟩ := bind_eq_ok.mp h
      cases h
      obtain ⟨a, b, c, d, e, rfl, rfl⟩ := array_five hteam
      obtain rfl := variant_eq_ok.mp hinner
      refine ⟨fun keys hkeys => ?_, .pair (.unsigned 2) (.variant (.array ?_))⟩
      · obtain rfl := Option.mem_some_iff.mp hkeys
        exact (not_and_or.mp hsigns).imp not_not.mp not_not.mp
      · exact .cons (reads_entity.mirrors hverify) (.cons ((reads_hash _).mirrors hfingerprint)
          (.cons (reads_unsigned.mirrors hgeneration)
            (.cons ((reads_hash _).optionBlob.mirrors hremoval)
              (.cons (reads_optionRange.mirrors hrange) .nil))))
    · cases h

def TeamMemberChange.Typed (change : TeamMemberChange) : Prop :=
  (∀ host ∈ change.scopedHost, host.entityType = entityHost) ∧ ∀ keys ∈ change.keys, keys.Typed

theorem reads_teamMemberChange :
    Reads teamMemberChange teamMemberChangeValue TeamMemberChange.Typed where
  read_write := by
    intro change htyped
    have hhost := (reads_entityOf entityHost).optionBlob.read_write _ htyped.1
    simp [teamMemberChange, teamMemberChangeValue, array,
      reads_teamMemberKeys.read_write _ htyped.2, reads_role.read_write, reads_entity.read_write,
      hhost]
  write_read := by
    intro v change hread
    obtain ⟨fields, hfields, h⟩ := bind_eq_ok.mp hread
    obtain ⟨member, hmember, h⟩ := bind_eq_ok.mp h
    obtain ⟨fqe, hfqe, h⟩ := bind_eq_ok.mp h
    obtain ⟨keys, hkeys, h⟩ := bind_eq_ok.mp h
    obtain ⟨destination, hdestination, h⟩ := bind_eq_ok.mp h
    obtain ⟨party, hparty, h⟩ := bind_eq_ok.mp h
    obtain ⟨scopedHost, hhost, h⟩ := bind_eq_ok.mp h
    obtain ⟨sourceRole, hsource, h⟩ := bind_eq_ok.mp h
    cases h
    obtain ⟨a, b, rfl, rfl⟩ := array_two hfields
    obtain ⟨c, d, e, rfl, rfl⟩ := array_three hmember
    obtain ⟨f, g, rfl, rfl⟩ := array_two hfqe
    obtain ⟨hkeysTyped, hkeys⟩ := reads_teamMemberKeys.write_read _ _ hkeys
    obtain ⟨hhostTyped, hhost⟩ := (reads_entityOf entityHost).optionBlob.write_read _ _ hhost
    exact ⟨⟨hhostTyped, hkeysTyped⟩, .pair (reads_role.mirrors hdestination) (.array
      (.cons (.pair (reads_entity.mirrors hparty) hhost)
        (.cons (reads_role.mirrors hsource) (.cons hkeys .nil))))⟩

theorem reads_sharedKey (kind : UInt8) (fingerprintKind : String) :
    Reads (sharedKey kind fingerprintKind) userSharedKeyValue
      (fun key => key.verifyKey.entityType = kind) where
  read_write := by
    intro key htyped
    simp [sharedKey, userSharedKeyValue, array, unsigned, reads_role.read_write,
      (reads_entityOf kind).read_write _ htyped]
  write_read := by
    intro v key hread
    obtain ⟨fields, hfields, h⟩ := bind_eq_ok.mp hread
    obtain ⟨generation, hgeneration, h⟩ := bind_eq_ok.mp h
    obtain ⟨keyRole, hrole, h⟩ := bind_eq_ok.mp h
    obtain ⟨verifyKey, hverify, h⟩ := bind_eq_ok.mp h
    obtain ⟨fingerprint, hfingerprint, h⟩ := bind_eq_ok.mp h
    cases h
    obtain ⟨a, b, c, d, rfl, rfl⟩ := array_four hfields
    obtain ⟨htyped, hverify⟩ := (reads_entityOf kind).write_read _ _ hverify
    exact ⟨htyped, .array (.cons (reads_unsigned.mirrors hgeneration)
      (.cons (reads_role.mirrors hrole) (.cons hverify
        (.cons ((reads_hash _).mirrors hfingerprint) .nil))))⟩

/-- The owner of a team key on the wire. -/
def keyOwnerValue (owner : TeamKeyOwner) : Value :=
  .array [.binary owner.party.bytes, owner.sourceRole.toValue]

theorem reads_keyOwner : Reads keyOwner keyOwnerValue (fun _ => True) where
  read_write := by
    intro owner _
    simp [keyOwner, keyOwnerValue, array, reads_entity.read_write, reads_role.read_write]
  write_read := by
    intro v owner hread
    obtain ⟨fields, hfields, h⟩ := bind_eq_ok.mp hread
    obtain ⟨party, hparty, h⟩ := bind_eq_ok.mp h
    obtain ⟨sourceRole, hsource, h⟩ := bind_eq_ok.mp h
    cases h
    obtain ⟨a, b, rfl, rfl⟩ := array_two hfields
    exact ⟨trivial, .pair (reads_entity.mirrors hparty) (reads_role.mirrors hsource)⟩

/-! ## The chainer -/

theorem chainer_written (locationKind : String) (base : Chainer) :
    chainer locationKind
      [.array [.unsigned base.seqno, optionBlob (base.previous.map (·.bytes)),
          .array [.unsigned base.root.epoch, .binary base.root.hash.bytes], .unsigned base.time],
        .binary base.nextLocationCommitment.bytes]
      [.unsigned base.seqno, optionBlob (base.previous.map (·.bytes)),
        .array [.unsigned base.root.epoch, .binary base.root.hash.bytes], .unsigned base.time]
      [.unsigned base.root.epoch, .binary base.root.hash.bytes] = .ok base := by
  have hprevious (kind : String) := (reads_hash kind).optionBlob.read_write base.previous
    (fun _ _ => trivial)
  simp [chainer, unsigned, hprevious]

/-- The chainer that is read is written back as the first field of the group. -/
theorem chainer_mirrors {locationKind : String} {hidden fields root : List Value} {base : Chainer}
    (hhidden : array v 2 = .ok hidden) (hfields : array (hidden.getD 0 .null) 4 = .ok fields)
    (hroot : array (fields.getD 2 .null) 2 = .ok root)
    (h : chainer locationKind hidden fields root = .ok base) : Mirrors v (chainerValue base) := by
  obtain ⟨seqno, hseqno, h⟩ := bind_eq_ok.mp h
  obtain ⟨previous, hprevious, h⟩ := bind_eq_ok.mp h
  obtain ⟨epoch, hepoch, h⟩ := bind_eq_ok.mp h
  obtain ⟨hash, hhash, h⟩ := bind_eq_ok.mp h
  obtain ⟨time, htime, h⟩ := bind_eq_ok.mp h
  obtain ⟨location, hlocation, h⟩ := bind_eq_ok.mp h
  cases h
  obtain ⟨a, b, rfl, rfl⟩ := array_two hhidden
  obtain ⟨c, d, e, f, rfl, rfl⟩ := array_four hfields
  obtain ⟨g, i, rfl, rfl⟩ := array_two hroot
  exact .pair (.array (.cons (reads_unsigned.mirrors hseqno)
    (.cons ((reads_hash _).optionBlob.mirrors hprevious)
      (.cons (.pair (reads_unsigned.mirrors hepoch) ((reads_hash _).mirrors hhash))
        (.cons (reads_unsigned.mirrors htime) .nil))))) ((reads_hash _).mirrors hlocation)

/-! ## Group changes -/

/-- What the builders encode of a change of a user's chain. -/
def UserGroupChange.value (change : UserGroupChange) : Value :=
  groupChangeValue change.chainer change.uid change.host change.signer .null
    (change.changes.map userMemberChangeValue) (change.sharedKeys.map userSharedKeyValue)
    (change.metadata.map changeMetadataValue)

/-- What the builders encode of a change of a team's chain. -/
def TeamGroupChange.value (change : TeamGroupChange) : Value :=
  groupChangeValue change.chainer change.team change.host change.signer
    (keyOwnerValue change.signerOwner) (change.changes.map teamMemberChangeValue)
    (change.sharedKeys.map userSharedKeyValue) (change.metadata.map changeMetadataValue)

/-- The entity ids of a change of a user's chain are of the kinds their fields are for. -/
def UserGroupChange.Typed (change : UserGroupChange) : Prop :=
  change.uid.entityType = entityUser ∧ change.host.entityType = entityHost ∧
    IsUserMember change.signer ∧ (∀ member ∈ change.changes, member.Typed) ∧
    ∀ key ∈ change.sharedKeys, key.verifyKey.entityType = entityPukVerify

/-- The entity ids of a change of a team's chain are of the kinds their fields are for. -/
def TeamGroupChange.Typed (change : TeamGroupChange) : Prop :=
  (change.team.entityType = entityNamedTeam ∨ change.team.entityType = entityAdHocTeam) ∧
    change.host.entityType = entityHost ∧ (∀ member ∈ change.changes, member.Typed) ∧
    ∀ key ∈ change.sharedKeys, key.verifyKey.entityType = entityPtkVerify

section

variable {link : UserLink} {group : List Value}

theorem groupFields_written {chainer : Chainer} {entity host signer : EntityId} {owner : Value}
    {changes sharedKeys metadata : List Value} (h : decodeValue link.inner =
      .ok (groupChangeValue chainer entity host signer owner changes sharedKeys metadata)) :
    link.groupFields = .ok [chainerValue chainer, .array [.binary entity.bytes, .binary host.bytes],
      .array [.binary signer.bytes, owner], listValue changes, .null, listValue sharedKeys,
      listValue metadata, .null] :=
  groupFields_eq_ok.mpr ⟨h, rfl⟩

/-- The eight fields as they were read, against what is written for them. -/
theorem groupChangeValue_eq_iff {chainer : Chainer} {entity host signer : EntityId} {owner : Value}
    {changes sharedKeys metadata : List Value} {a b c d e f g i : Value}
    (hgroup : link.groupFields = .ok [a, b, c, d, e, f, g, i])
    (ha : Mirrors a (chainerValue chainer))
    (hb : Mirrors b (.array [.binary entity.bytes, .binary host.bytes]))
    (hc : Mirrors c (.array [.binary signer.bytes, owner])) (hd : Mirrors d (listValue changes))
    (hf : Mirrors f (listValue sharedKeys)) (hg : Mirrors g (listValue metadata)) :
    groupChangeValue chainer entity host signer owner changes sharedKeys metadata =
        .array [.unsigned 1, .variant [0x30] (.array [a, b, c, d, e, f, g, i])] ↔
      link.isPlain = true := by
  rw [isPlain_iff hgroup, groupChangeValue]
  have hwritten (he : e = .null) (hi : i = .null) : List.Forall₂ Mirrors
      [a, b, c, d, e, f, g, i] [chainerValue chainer,
        .array [.binary entity.bytes, .binary host.bytes], .array [.binary signer.bytes, owner],
        listValue changes, .null, listValue sharedKeys, listValue metadata, .null] := by
    rw [he, hi]
    exact .cons ha (.cons hb (.cons hc (.cons hd (.cons .null (.cons hf (.cons hg
      (.cons .null .nil)))))))
  constructor
  · intro heq
    obtain ⟨rfl, rfl, rfl, rfl, rfl, rfl, rfl, rfl⟩ := heq
    exact ⟨rfl, rfl, (Mirrors.all (hwritten rfl rfl)).1⟩
  · rintro ⟨he, hi, hfilled⟩
    have hfits := groupFields_fits hgroup
    rw [(Mirrors.all (hwritten he hi)).2 fun v hv => ⟨hfilled v hv, hfits v hv⟩]

theorem reads_optionOwner : Reads (fun v => option v keyOwner)
    (fun o => o.elim .null keyOwnerValue) (fun o => ∀ owner ∈ o, True) :=
  reads_keyOwner.option fun _ => Value.noConfusion

theorem readsLink_userGroupChange :
    ReadsLink UserLink.decodeGroupChange UserGroupChange.value UserGroupChange.Typed where
  read_write := by
    rintro link change ⟨huid, hhost, hsigner, hchanges, hkeys⟩ hdecode
    have hmembers := reads_userMemberChange.list.read_write _ hchanges
    have hshared := (reads_sharedKey entityPukVerify "PUK HEPK fingerprint").list.read_write _ hkeys
    have hmetadata := reads_changeMetadata.list.read_write change.metadata (fun _ _ => trivial)
    simp [UserLink.decodeGroupChange, groupFields_written hdecode, chainerValue, array,
      chainer_written, (reads_entityOf entityUser).read_write _ huid,
      (reads_entityOf entityHost).read_write _ hhost, reads_userMemberEntity.read_write _ hsigner,
      hmembers, userSharedKey, hshared, hmetadata]
  write_read := by
    intro link change hread
    obtain ⟨group, hgroup, h⟩ := bind_eq_ok.mp hread
    obtain ⟨hidden, hhidden, h⟩ := bind_eq_ok.mp h
    obtain ⟨fields, hfields, h⟩ := bind_eq_ok.mp h
    obtain ⟨root, hroot, h⟩ := bind_eq_ok.mp h
    obtain ⟨fqUser, hfqUser, h⟩ := bind_eq_ok.mp h
    obtain ⟨key, hkey, h⟩ := bind_eq_ok.mp h
    obtain ⟨howner, h⟩ := ite_error_eq_ok.mp h
    obtain ⟨base, hbase, h⟩ := bind_eq_ok.mp h
    obtain ⟨uid, huid, h⟩ := bind_eq_ok.mp h
    obtain ⟨host, hhost, h⟩ := bind_eq_ok.mp h
    obtain ⟨signer, hsigner, h⟩ := bind_eq_ok.mp h
    obtain ⟨changes, hchanges, h⟩ := bind_eq_ok.mp h
    obtain ⟨sharedKeys, hkeys, h⟩ := bind_eq_ok.mp h
    obtain ⟨metadata, hmetadata, h⟩ := bind_eq_ok.mp h
    cases h
    obtain ⟨hdecode, -⟩ := groupFields_eq_ok.mp hgroup
    obtain ⟨a, b, c, d, e, f, g, i, rfl⟩ := groupFields_eight hgroup
    obtain ⟨p, q, rfl, rfl⟩ := array_two hfqUser
    obtain ⟨r, t, rfl, rfl⟩ := array_two hkey
    obtain rfl : t = .null := not_not.mp howner
    refine ⟨_, hdecode, groupChangeValue_eq_iff hgroup
      (chainer_mirrors hhidden hfields hroot hbase) ?_ ?_ ?_ ?_ ?_⟩
    · exact .pair ((reads_entityOf entityUser).mirrors huid)
        ((reads_entityOf entityHost).mirrors hhost)
    · exact .pair (reads_userMemberEntity.mirrors hsigner) .null
    · exact reads_userMemberChange.list.mirrors hchanges
    · exact (reads_sharedKey entityPukVerify _).list.mirrors hkeys
    · exact reads_changeMetadata.list.mirrors hmetadata

theorem readsLink_teamGroupChange :
    ReadsLink UserLink.decodeTeamGroupChange TeamGroupChange.value TeamGroupChange.Typed where
  read_write := by
    rintro link change ⟨hteam, hhost, hchanges, hkeys⟩ hdecode
    have hkind : ¬ (change.team.entityType ≠ entityNamedTeam ∧
        change.team.entityType ≠ entityAdHocTeam) :=
      not_and_or.mpr (hteam.imp not_not.mpr not_not.mpr)
    have howner := reads_optionOwner.read_write (some change.signerOwner) (fun _ _ => trivial)
    have hmembers := reads_teamMemberChange.list.read_write _ hchanges
    have hshared := (reads_sharedKey entityPtkVerify "PTK HEPK fingerprint").list.read_write _ hkeys
    have hmetadata := reads_changeMetadata.list.read_write change.metadata (fun _ _ => trivial)
    rw [Option.elim_some] at howner
    simp only [UserLink.decodeTeamGroupChange, groupFields_written hdecode]
    simp [chainerValue, array, chainer_written, hkind, howner, okOr, reads_entity.read_write,
      (reads_entityOf entityHost).read_write _ hhost, hmembers, teamSharedKey, hshared, hmetadata]
  write_read := by
    intro link change hread
    obtain ⟨group, hgroup, h⟩ := bind_eq_ok.mp hread
    obtain ⟨hidden, hhidden, h⟩ := bind_eq_ok.mp h
    obtain ⟨fields, hfields, h⟩ := bind_eq_ok.mp h
    obtain ⟨root, hroot, h⟩ := bind_eq_ok.mp h
    obtain ⟨fqTeam, hfqTeam, h⟩ := bind_eq_ok.mp h
    obtain ⟨team, hteam, h⟩ := bind_eq_ok.mp h
    obtain ⟨-, h⟩ := ite_error_eq_ok.mp h
    obtain ⟨key, hkey, h⟩ := bind_eq_ok.mp h
    obtain ⟨maybeOwner, howner, h⟩ := bind_eq_ok.mp h
    obtain ⟨owner, hsome, h⟩ := bind_eq_ok.mp h
    obtain ⟨base, hbase, h⟩ := bind_eq_ok.mp h
    obtain ⟨host, hhost, h⟩ := bind_eq_ok.mp h
    obtain ⟨signer, hsigner, h⟩ := bind_eq_ok.mp h
    obtain ⟨changes, hchanges, h⟩ := bind_eq_ok.mp h
    obtain ⟨sharedKeys, hkeys, h⟩ := bind_eq_ok.mp h
    obtain ⟨metadata, hmetadata, h⟩ := bind_eq_ok.mp h
    cases h
    obtain rfl := okOr_eq_ok.mp hsome
    obtain ⟨hdecode, -⟩ := groupFields_eq_ok.mp hgroup
    obtain ⟨a, b, c, d, e, f, g, i, rfl⟩ := groupFields_eight hgroup
    obtain ⟨p, q, rfl, rfl⟩ := array_two hfqTeam
    obtain ⟨r, t, rfl, rfl⟩ := array_two hkey
    refine ⟨_, hdecode, groupChangeValue_eq_iff hgroup
      (chainer_mirrors hhidden hfields hroot hbase) ?_ ?_ ?_ ?_ ?_⟩
    · exact .pair (reads_entity.mirrors hteam) ((reads_entityOf entityHost).mirrors hhost)
    · exact .pair (reads_entity.mirrors hsigner) (reads_optionOwner.mirrors howner)
    · exact reads_teamMemberChange.list.mirrors hchanges
    · exact (reads_sharedKey entityPtkVerify _).list.mirrors hkeys
    · exact reads_changeMetadata.list.mirrors hmetadata

/-! ## Links that were built, and links that are accepted -/

theorem userGroupChange_encodes {change : UserGroupChange} {unsigned : UnsignedUserLink}
    (h : UnsignedUserLink.userGroupChange change = .ok unsigned) :
    encodeValue change.value = .ok unsigned.inner := by
  obtain ⟨_, -, h⟩ := bind_eq_ok.mp h
  obtain ⟨_, -, h⟩ := bind_eq_ok.mp h
  obtain ⟨-, h⟩ := ite_error_eq_ok.mp h
  obtain ⟨inner, hinner, h⟩ := bind_eq_ok.mp h
  cases h
  exact hinner

theorem teamGroupChange_encodes {change : TeamGroupChange} {unsigned : UnsignedUserLink}
    (h : UnsignedUserLink.teamGroupChange change = .ok unsigned) :
    encodeValue change.value = .ok unsigned.inner := by
  obtain ⟨_, -, h⟩ := bind_eq_ok.mp h
  obtain ⟨-, h⟩ := ite_error_eq_ok.mp h
  obtain ⟨-, h⟩ := ite_error_eq_ok.mp h
  obtain ⟨inner, hinner, h⟩ := bind_eq_ok.mp h
  cases h
  exact hinner

theorem finish_inner {unsigned : UnsignedUserLink} {signatures : List Signature}
    (h : unsigned.finish signatures = .ok link) : link.inner = unsigned.inner := by
  obtain ⟨-, h⟩ := ite_error_eq_ok.mp h
  obtain ⟨exactBytes, -, h⟩ := bind_eq_ok.mp h
  cases h
  rfl

/-- A change of well-typed fields is decoded from the link that was built of it exactly if its
    value is not larger than the decoder takes. A change that was decoded is encoded to the inner
    bytes of its link exactly if the link is plain; so two plain links of one change sign the same
    bytes. -/
theorem groupChange_codec_iff (link other : UserLink) :
    ((∀ (change : UserGroupChange) (unsigned : UnsignedUserLink) (signatures : List Signature),
        change.Typed → UnsignedUserLink.userGroupChange change = .ok unsigned →
        unsigned.finish signatures = .ok link →
        (link.decodeGroupChange = .ok change ↔ change.value.size ≤ maximumDecodedValues)) ∧
      ∀ (change : TeamGroupChange) (unsigned : UnsignedUserLink) (signatures : List Signature),
        change.Typed → UnsignedUserLink.teamGroupChange change = .ok unsigned →
        unsigned.finish signatures = .ok link →
        (link.decodeTeamGroupChange = .ok change ↔ change.value.size ≤ maximumDecodedValues)) ∧
    ((∀ change : UserGroupChange, link.decodeGroupChange = .ok change →
        (encodeValue change.value = .ok link.inner ↔ link.isPlain = true)) ∧
      ∀ change : TeamGroupChange, link.decodeTeamGroupChange = .ok change →
        (encodeValue change.value = .ok link.inner ↔ link.isPlain = true)) ∧
    ((∀ change : UserGroupChange, link.decodeGroupChange = .ok change →
        other.decodeGroupChange = .ok change → link.isPlain = true → other.isPlain = true →
        link.inner = other.inner) ∧
      ∀ change : TeamGroupChange, link.decodeTeamGroupChange = .ok change →
        other.decodeTeamGroupChange = .ok change → link.isPlain = true → other.isPlain = true →
        link.inner = other.inner) := by
  refine ⟨⟨?_, ?_⟩, ⟨?_, ?_⟩, ?_, ?_⟩
  · intro change unsigned signatures htyped hbuilt hfinish
    refine readsLink_userGroupChange.built_iff htyped ?_
    rw [finish_inner hfinish]
    exact userGroupChange_encodes hbuilt
  · intro change unsigned signatures htyped hbuilt hfinish
    refine readsLink_teamGroupChange.built_iff htyped ?_
    rw [finish_inner hfinish]
    exact teamGroupChange_encodes hbuilt
  · intro change
    exact readsLink_userGroupChange.reencoded_iff
  · intro change
    exact readsLink_teamGroupChange.reencoded_iff
  · intro change
    exact readsLink_userGroupChange.inner_eq
  · intro change
    exact readsLink_teamGroupChange.inner_eq

end

/-! ## Sample links

The links of a user and of a team, with a digest that is cheap to evaluate. -/

namespace LinkSample

/-- The string as a number in base 257, cut to 32 bytes. -/
def digest : Digest := fun bytes =>
  ⟨toBE 32 (bytes.foldl (fun acc byte => acc * 257 + byte.toNat + 1) 0), toBE_length ..⟩

section

variable (tag : UInt8)

def key : FixedBytes 32 := .replicate 32 tag

theorem isEntity_cons {kind : UInt8} (tag : UInt8) (h : entityLength kind = some 33) :
    IsEntity (kind :: (key tag).bytes) := by
  simp [IsEntity, h, (key tag).size_eq]

/-- An identifier of a kind with 32 bytes of key; of any other kind it is a user. -/
def entity (kind tag : UInt8) : EntityId :=
  if h : entityLength kind = some 33 then ⟨kind :: (key tag).bytes, isEntity_cons tag h⟩
  else ⟨entityUser :: (key tag).bytes, isEntity_cons tag (by decide)⟩

def host : EntityId := entity entityHost 7
def uid : EntityId := entity entityUser 1

/-- The team is named by its first admin key. -/
def team : EntityId := entity entityNamedTeam 13

theorem isTeam_team : team.entityType = entityNamedTeam ∨ team.entityType = entityAdHocTeam :=
  .inl rfl

def puk : EntityId := entity entityPukVerify tag
def device : EntityId := entity entityDevice tag
def user : EntityId := entity entityUser tag
def ptk : EntityId := entity entityPtkVerify tag

def hepkValue : Value :=
  .array [.unsigned 1, .variant [0x31] (.array [
    .array [.unsigned 1, .variant [0x30] (.binary (key tag).bytes)],
    .array [.unsigned 1, .variant [0x31] (.binary (List.replicate 1184 tag))]])]

def hepk : Hepk :=
  ⟨.curve25519 (key tag), List.replicate 1184 tag, wire (hepkValue tag)⟩

def fingerprint : Hash := Crypto.prefixedHash digest hepkTypeId (hepk tag).exactBytes

end

def root : TreeRoot := ⟨1, key 0⟩

def signature : Signature := .ed25519 (.replicate 64 0)

/-- The outer link over a value, with a number of signatures. -/
def link (inner : Value) (signatures : Nat) : UserLink :=
  ⟨wire inner, List.replicate signatures signature,
    wire (UnsignedUserLink.outerValue (wire inner) (List.replicate signatures signature))⟩

def enrolChange : UserGroupChange :=
  ⟨⟨2, some (key 0), root, 0, key 0⟩, uid, host, device 3,
    [⟨.owner, device 4, none, .none, .user (fingerprint 4) none⟩], [], [.deviceName (key 0)]⟩

/-- A user enters or changes with an owner PUK. -/
def member (tag : UInt8) (role : Role) (generation : UInt64) : TeamMemberChange :=
  ⟨role, user tag, none, .owner,
    some ⟨puk tag, fingerprint tag, generation, some (key 0), none⟩⟩

/-- The link by which a user founds the team, with its index range. -/
def foundChange (range : RationalRange) : TeamGroupChange :=
  ⟨⟨1, none, root, 0, key 0⟩, team, host, puk 1, ⟨user 1, .owner⟩, [member 1 .owner 1],
    [⟨1, .member (-0x4000), ptk 11, fingerprint 3⟩, ⟨1, .member 0, ptk 12, fingerprint 3⟩,
      ⟨1, .admin, ptk 13, fingerprint 3⟩, ⟨1, .owner, ptk 14, fingerprint 3⟩],
    [.teamName (key 0), .eldest (key 0), .teamIndexRange range]⟩

/-! A link whose last field is not null. -/

/-- A second link that changes nothing. -/
def emptyChange : UserGroupChange := { enrolChange with changes := [], metadata := [] }

/-- The inner blob of that link, with something in the last field. -/
def inner (last : Value) : Value :=
  .array [.unsigned 1, .variant [0x30] (.array [chainerValue emptyChange.chainer,
    .array [.binary emptyChange.uid.bytes, .binary emptyChange.host.bytes],
    .array [.binary emptyChange.signer.bytes, .null], .null, .null, .null, .null, last])]

def emptyLink (last : Value) : UserLink := link (inner last) 1

theorem emptyLink_decodeGroupChange {last : Value} (h : Codable (inner last)) :
    (emptyLink last).decodeGroupChange = .ok emptyChange := by
  refine bind_of_ok (groupFields_eq_ok.mpr ⟨decodeValue_eq_ok.mpr ⟨h, rfl⟩, rfl⟩) ?_
  rfl

theorem emptyLink_decode {last : Value}
    (h : Codable (UnsignedUserLink.outerValue (wire (inner last)) [signature])) :
    UserLink.decode (emptyLink last).exactBytes = .ok (emptyLink last) := by
  refine bind_of_ok (decodeValue_eq_ok.mpr ⟨h, rfl⟩) ?_
  refine bind_of_ok (array_eq_ok.mpr ⟨rfl, rfl⟩) ?_
  refine bind_eq_ok.mpr ⟨(), expectUnsigned_eq_ok.mpr rfl, ?_⟩
  refine bind_of_ok (variant_eq_ok.mpr rfl) ?_
  refine bind_of_ok (array_eq_ok.mpr ⟨rfl, rfl⟩) ?_
  refine bind_of_ok (binary_eq_ok.mpr rfl) (bind_eq_ok.mpr ⟨[signature], rfl, ?_⟩)
  exact bind_of_ok (encodeValue_codable h) rfl

/-- The last field is written as null and read by nobody: a link that holds a number there is
    accepted as the same change, and its signers signed other bytes. -/
theorem decodeGroupChange_not_injective :
    UserLink.decode (emptyLink .null).exactBytes = .ok (emptyLink .null) ∧
      UserLink.decode (emptyLink (.unsigned 0)).exactBytes = .ok (emptyLink (.unsigned 0)) ∧
      (emptyLink .null).decodeGroupChange = .ok emptyChange ∧
      (emptyLink (.unsigned 0)).decodeGroupChange = .ok emptyChange ∧
      (emptyLink .null).inner ≠ (emptyLink (.unsigned 0)).inner ∧
      encodeValue emptyChange.value ≠ .ok (emptyLink (.unsigned 0)).inner := by
  have hinner : (emptyLink .null).inner ≠ (emptyLink (.unsigned 0)).inner := by decide +kernel
  refine ⟨emptyLink_decode (by decide +kernel), emptyLink_decode (by decide +kernel),
    emptyLink_decodeGroupChange (by decide +kernel),
    emptyLink_decodeGroupChange (by decide +kernel), hinner, fun h => hinner ?_⟩
  have hnull : encodeValue emptyChange.value = .ok (emptyLink .null).inner :=
    encodeValue_codable (by decide +kernel)
  exact Except.ok.inj (hnull.symm.trans h)

/-! Links that are built, decoded and encoded again. -/

/-- A device enters, and the key of the owners is replaced. -/
def rotateChange : UserGroupChange :=
  { enrolChange with sharedKeys := [⟨2, .owner, puk 2, fingerprint 2⟩] }

def range : RationalRange := ⟨⟨false, [1], 0⟩, ⟨true, [], 0⟩⟩

theorem rotateChange_typed : rotateChange.Typed := by
  refine ⟨by decide, by decide, .inl (by decide), ?_, ?_⟩
  · refine List.forall_mem_singleton.mpr ⟨.inl (by decide), ?_⟩
    exact fun host hhost => absurd hhost (Option.not_mem_none host)
  · exact List.forall_mem_singleton.mpr (by decide)

theorem foundChange_typed : (foundChange range).Typed := by
  refine ⟨isTeam_team, by decide, ?_, by decide⟩
  refine List.forall_mem_singleton.mpr ⟨?_, ?_⟩
  · exact fun host hhost => absurd hhost (Option.not_mem_none host)
  · rintro keys ⟨⟩
    exact .inl (by decide)

theorem finish_link (value : Value) {signatures : Nat} (hsigned : signatures ≠ 0)
    (h : Codable (UnsignedUserLink.outerValue (wire value)
      (List.replicate signatures signature))) :
    (UnsignedUserLink.mk (wire value)).finish (List.replicate signatures signature) =
      .ok (link value signatures) := by
  refine ite_error_eq_ok.mpr ⟨by simpa using hsigned, ?_⟩
  exact bind_of_ok (encodeValue_codable h) rfl

/-- A change of a user with a device, a key and a device name, and the change that founds a team,
    with its member, its keys and its range: both are built, decoded and encoded again. -/
theorem changes_codec :
    (UnsignedUserLink.userGroupChange rotateChange = .ok ⟨wire rotateChange.value⟩ ∧
      (UnsignedUserLink.mk (wire rotateChange.value)).finish (List.replicate 3 signature) =
        .ok (link rotateChange.value 3) ∧
      (link rotateChange.value 3).decodeGroupChange = .ok rotateChange ∧
      encodeValue rotateChange.value = .ok (link rotateChange.value 3).inner ∧
      (link rotateChange.value 3).isPlain = true) ∧
    UnsignedUserLink.teamGroupChange (foundChange range) = .ok ⟨wire (foundChange range).value⟩ ∧
      (UnsignedUserLink.mk (wire (foundChange range).value)).finish
        (List.replicate 5 signature) = .ok (link (foundChange range).value 5) ∧
      (link (foundChange range).value 5).decodeTeamGroupChange = .ok (foundChange range) ∧
      encodeValue (foundChange range).value = .ok (link (foundChange range).value 5).inner ∧
      (link (foundChange range).value 5).isPlain = true := by
  have huser : encodeValue rotateChange.value = .ok (wire rotateChange.value) :=
    encodeValue_codable (by decide +kernel)
  have hteam : encodeValue (foundChange range).value = .ok (wire (foundChange range).value) :=
    encodeValue_codable (by decide +kernel)
  have huserBuilt : UnsignedUserLink.userGroupChange rotateChange =
      .ok ⟨wire rotateChange.value⟩ := by
    refine bind_of_ok rfl (bind_of_ok rfl ?_)
    exact ite_error_eq_ok.mpr ⟨by decide, bind_of_ok huser rfl⟩
  have hteamBuilt : UnsignedUserLink.teamGroupChange (foundChange range) =
      .ok ⟨wire (foundChange range).value⟩ := by
    refine bind_of_ok rfl (ite_error_eq_ok.mpr ⟨by decide, ?_⟩)
    exact ite_error_eq_ok.mpr ⟨by decide, bind_of_ok hteam rfl⟩
  refine ⟨⟨huserBuilt, ?_⟩, hteamBuilt, ?_⟩
  · obtain ⟨⟨hread, -⟩, ⟨hwrite, -⟩, -⟩ :=
      groupChange_codec_iff (link rotateChange.value 3) (link rotateChange.value 3)
    have hfinish := finish_link rotateChange.value (Nat.succ_ne_zero 2) (by decide +kernel)
    have hdecode := (hread _ _ _ rotateChange_typed huserBuilt hfinish).mpr (by decide +kernel)
    exact ⟨hfinish, hdecode, huser, (hwrite _ hdecode).mp huser⟩
  · obtain ⟨⟨-, hread⟩, ⟨-, hwrite⟩, -⟩ :=
      groupChange_codec_iff (link (foundChange range).value 5) (link (foundChange range).value 5)
    have hfinish := finish_link (foundChange range).value (Nat.succ_ne_zero 4) (by decide +kernel)
    have hdecode := (hread _ _ _ foundChange_typed hteamBuilt hfinish).mpr (by decide +kernel)
    exact ⟨hfinish, hdecode, hteam, (hwrite _ hdecode).mp hteam⟩

end LinkSample

end Foks.Proto
