/-
  Entity identifiers and signatures (`foks-proto`, `entity.rs`): one byte for the kind of entity,
  then its key. An `EntityId` carries the proof that it is as long as its kind requires.
-/
import Foks.Proto.Codec

namespace Foks.Proto

open Foks.Lib Foks.Snowpack

def entityUser : UInt8 := 1
def entityHost : UInt8 := 2
def entityNamedTeam : UInt8 := 3
def entityDevice : UInt8 := 4
def entityYubi : UInt8 := 8
def entityHostMerkleSigner : UInt8 := 10
def entityHostTlsCa : UInt8 := 11
def entityHostMetadataSigner : UInt8 := 12
def entitySubkey : UInt8 := 13
def entityPukVerify : UInt8 := 14
def entityPtkVerify : UInt8 := 15
def entityBackupKey : UInt8 := 16
def entityBotTokenKey : UInt8 := 19
def entityAdHocTeam : UInt8 := 20

/-- How long an identifier of a kind is, kind included. -/
def entityLength (kind : UInt8) : Option Nat :=
  if (1 ≤ kind ∧ kind ≤ 7) ∨ (9 ≤ kind ∧ kind ≤ 21) then some 33
  else if kind = entityYubi then some 34
  else none

/-- The bytes of an identifier, as `EntityId::from_bytes` accepts them. -/
def IsEntity (bytes : List UInt8) : Prop := bytes.head?.bind entityLength = some bytes.length

instance (bytes : List UInt8) : Decidable (IsEntity bytes) := inferInstanceAs (Decidable (_ = _))

@[ext] structure EntityId where
  bytes : List UInt8
  isEntity : IsEntity bytes
  deriving DecidableEq

namespace EntityId

section

variable (id : EntityId)

/-- The first byte. -/
def entityType : UInt8 := id.bytes.headD 0

/-- The bytes of an identifier start with its kind and are as many as the kind requires. -/
theorem bytes_of_type {kind : UInt8} (h : id.entityType = kind) :
    id.bytes.head? = some kind ∧ some id.bytes.length = entityLength kind := by
  have hshape := id.isEntity
  unfold IsEntity at hshape
  unfold entityType at h
  cases hbytes : id.bytes with
  | nil =>
    rw [hbytes] at hshape
    cases hshape
  | cons b bs =>
    rw [hbytes] at hshape h
    obtain rfl : b = kind := h
    exact ⟨rfl, hshape.symm⟩

theorem bytes_length_pos : 0 < id.bytes.length := by
  have hshape := id.isEntity
  cases hbytes : id.bytes with
  | nil =>
    rw [hbytes] at hshape
    cases hshape
  | cons b bs => simp

/-- The first byte says how long an identifier is, so no identifier starts another one. -/
theorem bytes_append_inj {a b : EntityId} {xs ys : List UInt8}
    (h : a.bytes ++ xs = b.bytes ++ ys) : a = b ∧ xs = ys := by
  have hhead : a.bytes.head? = b.bytes.head? := by
    have hfirst := congrArg List.head? h
    rwa [List.head?_append_of_ne_nil _ (List.ne_nil_of_length_pos a.bytes_length_pos),
      List.head?_append_of_ne_nil _ (List.ne_nil_of_length_pos b.bytes_length_pos)] at hfirst
  have hlen : a.bytes.length = b.bytes.length := by
    have hshape := a.isEntity
    rw [IsEntity, hhead, b.isEntity] at hshape
    exact (Option.some.inj hshape).symm
  obtain ⟨hbytes, hrest⟩ := List.append_inj h hlen
  exact ⟨EntityId.ext hbytes, hrest⟩

def fromBytes (bytes : List UInt8) : Except Error EntityId :=
  if h : IsEntity bytes then .ok ⟨bytes, h⟩
  else
    match bytes.head? with
    | none => .error (.length "EntityID" 33 0)
    | some kind =>
      match entityLength kind with
      | none => .error (.entityType kind)
      | some expected => .error (.length "EntityID" expected bytes.length)

theorem fromBytes_eq_ok {bytes : List UInt8} {id : EntityId} :
    fromBytes bytes = .ok id ↔ bytes = id.bytes := by
  unfold fromBytes
  constructor
  · intro h
    split at h
    · cases h
      rfl
    · split at h
      · cases h
      · split at h <;> cases h
  · rintro rfl
    rw [dif_pos id.isEntity]

def requireType (expected : UInt8) : Except Error EntityId :=
  if id.entityType ≠ expected then .error (.wrongEntityType expected id.entityType) else .ok id

theorem requireType_eq_ok {id other : EntityId} {expected : UInt8} :
    id.requireType expected = .ok other ↔ id.entityType = expected ∧ other = id := by
  rw [requireType, ite_error_eq_ok, not_not, Except.ok.injEq, eq_comm (a := id) (b := other)]

/-- The kinds whose key is an Ed25519 key. -/
def isEd25519Entity (kind : UInt8) : Bool :=
  (1 ≤ kind && kind ≤ 7) || (10 ≤ kind && kind ≤ 17) || kind == 19 || kind == 20

def ed25519Key : Except Error (FixedBytes 32) :=
  if isEd25519Entity id.entityType then
    okOr (.length "Ed25519 EntityID" 33 id.bytes.length) (FixedBytes.ofBytes? 32 id.bytes.tail)
  else .error (.entityType id.entityType)

def p256Key : Except Error (FixedBytes 33) :=
  if id.entityType = entityYubi then
    okOr (.length "P-256 EntityID" 34 id.bytes.length) (FixedBytes.ofBytes? 33 id.bytes.tail)
  else .error (.entityType id.entityType)

/-- The bytes with another kind in front. -/
def withType (kind : UInt8) : List UInt8 := id.bytes.set 0 kind

end

end EntityId

def isTeam (entity : EntityId) : Bool :=
  entity.entityType == entityNamedTeam || entity.entityType == entityAdHocTeam

/-! ## Readers -/

def entity (value : Value) : Except Error EntityId := do
  let bytes ← binary value
  EntityId.fromBytes bytes

def deviceEntity (value : Value) : Except Error EntityId := do
  let id ← entity value
  if id.entityType = entityDevice ∨ id.entityType = entityYubi then .ok id
  else .error (.wrongEntityType entityDevice id.entityType)

def userMemberEntity (value : Value) : Except Error EntityId := do
  let id ← entity value
  if id.entityType = entityDevice ∨ id.entityType = entityYubi ∨ id.entityType = entityBackupKey ∨
      id.entityType = entityBotTokenKey then .ok id
  else .error (.entityType id.entityType)

/-- An entity of one kind. -/
def entityOf (kind : UInt8) (value : Value) : Except Error EntityId := do
  let id ← entity value
  id.requireType kind

/-! ## Signatures -/

inductive Signature where
  | ed25519 (bytes : FixedBytes 64)
  | ecdsa (bytes : List UInt8)
  deriving DecidableEq

def Signature.toValue : Signature → Value
  | .ed25519 bytes => .array [.unsigned 0, .variant [0x30] (.binary bytes.bytes)]
  | .ecdsa bytes => .array [.unsigned 1, .variant [0x31] (.binary bytes)]

def signature (value : Value) : Except Error Signature := do
  let fields ← array value 2
  let signatureType ← unsigned (fields.getD 0 .null)
  if signatureType = 0 then do
    let payload ← variant (fields.getD 1 .null) [0x30]
    let bytes ← fixedBlob 64 payload "Ed25519 signature"
    .ok (.ed25519 bytes)
  else if signatureType = 1 then do
    let payload ← variant (fields.getD 1 .null) [0x31]
    let bytes ← binary payload
    .ok (.ecdsa bytes)
  else .error (.unknownEnum "signature type" signatureType)

end Foks.Proto
