/-
  Protocol roles (`foks-proto`, `role.rs`, and their reader in `identity/chain.rs`).

  A role is none, a member with a signed visibility, an admin or an owner. The derived order
  compares the kind first and the visibility of two members next.
-/
import Foks.Proto.Codec

namespace Foks.Proto

open Foks.Lib Foks.Snowpack

inductive RoleType where
  | none
  | member
  | admin
  | owner
  deriving DecidableEq, Repr

inductive Role where
  | none
  | member (visibility : Int16)
  | admin
  | owner
  deriving DecidableEq, Repr

namespace Role

def kind : Role → RoleType
  | .none => .none
  | .member _ => .member
  | .admin => .admin
  | .owner => .owner

def visibility : Role → Option Int16
  | .member visibility => some visibility
  | _ => Option.none

/-- The number of the kind on the wire. -/
def protocolValue : Role → UInt64
  | .none => 0
  | .member _ => 1
  | .admin => 2
  | .owner => 3

/-- The fields in the order in which `derive(Ord)` compares them. -/
def rank (role : Role) : ℕ ×ₗ ℤ :=
  toLex (role.protocolValue.toNat, (role.visibility.getD 0).toInt)

theorem rank_injective : Function.Injective rank := by
  intro a b h
  have hpair := congrArg ofLex h
  cases a <;> cases b <;>
    simp_all [rank, protocolValue, visibility, Int16.toInt_inj]

instance : LinearOrder Role := LinearOrder.lift' rank rank_injective

/-- Maps and sets of roles are ordered by it. -/
instance roleTransOrd : Std.TransOrd Role := inferInstance

instance roleLawfulEqOrd : Std.LawfulEqOrd Role := ⟨fun h => compare_eq_iff_eq.mp h⟩

theorem le_iff_rank {a b : Role} : a ≤ b ↔ a.rank ≤ b.rank := Iff.rfl

theorem none_le (role : Role) : Role.none ≤ role := by
  rw [le_iff_rank, Prod.Lex.le_iff]
  cases role <;> simp [rank, protocolValue, visibility]

def toValue (role : Role) : Value :=
  .array [.unsigned role.protocolValue,
    match role with
    | .member visibility =>
      .variant [0x30] (if visibility.toInt < 0 then .negative visibility.toInt64
        else .unsigned (UInt64.ofNat visibility.toInt.toNat))
    | _ => .variantNone]

end Role

/-- `i16::try_from`. -/
def int16? (value : Int64) : Option Int16 :=
  if -32768 ≤ value.toInt ∧ value.toInt ≤ 32767 then some value.toInt16 else none

def role (value : Value) : Except Error Role := do
  let fields ← array value 2
  let roleType ← unsigned (fields.getD 0 .null)
  let payload := fields.getD 1 .null
  if roleType = 0 ∨ roleType = 2 ∨ roleType = 3 then
    if payload ≠ .variantNone then .error (typeError "empty role variant" payload)
    else .ok (if roleType = 0 then .none else if roleType = 2 then .admin else .owner)
  else if roleType = 1 then do
    let inner ← variant payload [0x30]
    let visibility ← integer inner
    let visibility ← okOr (.integerRange "i16") (int16? visibility)
    .ok (.member visibility)
  else .error (.unknownEnum "role type" roleType)

end Foks.Proto
