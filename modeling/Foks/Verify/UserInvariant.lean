/-
  Invariants of user replay.

  Along every run of accepted links the user keeps an owner device and an owner key, the
  generations of each role's keys are numbered without a gap, and no key material comes back
  (`Valid`). A key that a revoked device could read is replaced, or its role stays marked until it
  is (`Superseded`). Both are kept by one link and, by induction, by a run of links.
-/
import Foks.Proto.LinkCodec
import Foks.Verify.UserTransition

namespace Foks.Verify

open Std (ExtTreeMap ExtTreeSet)
open Foks.Lib Foks.Snowpack Foks.Crypto Foks.Proto

variable {change : UserGroupChange} {s s' : UserReplayState} {rotated : List VerifiedSharedKey}
  {target signer : VerifiedDevice} {member : UserMemberChange} {hepks : List Hepk}

namespace UserReplayState

/-- What every reached state satisfies. -/
structure Valid (s : UserReplayState) : Prop where
  device_id : ∀ (key : List UInt8) (device : VerifiedDevice), s.devices[key]? = some device →
    device.id.bytes = key
  key_role : ∀ (role : Role) (key : VerifiedSharedKey), s.sharedKeys[role]? = some key →
    key.role = role
  owner : ∃ (key : List UInt8) (device : VerifiedDevice), s.devices[key]? = some device ∧
    device.role = .owner
  owner_key : Role.owner ∈ s.sharedKeys
  none_not_mem : Role.none ∉ s.sharedKeys
  generations : ∀ role, (s.sharedKeyHistory.filter fun key => key.role = role).map
    (fun key => key.generation.toNat) = List.range' 1 (generationOf s.sharedKeys role)
  current : ∀ (role : Role) (key : VerifiedSharedKey), s.sharedKeys[role]? = some key →
    key ∈ s.sharedKeyHistory
  verifyKeys : (s.sharedKeyHistory.map (·.verifyKey)).Nodup
  hepks : (s.sharedKeyHistory.map (·.hepk)).Nodup

/-! ## The first state -/

theorem valid_fromEldest {device : VerifiedDevice} {key : VerifiedSharedKey}
    (hdevice : device.role = .owner) (hkey : key.role = .owner) (hgen : key.generation = 1) :
    Valid (fromEldest device key) := by
  have hdevices (k : List UInt8) (d : VerifiedDevice) :
      (fromEldest device key).devices[k]? = some d ↔ device.id.bytes = k ∧ device = d := by
    rw [fromEldest, getElem?_insert_self_or]
    split <;> simp_all
  have hkeys (r : Role) (k : VerifiedSharedKey) :
      (fromEldest device key).sharedKeys[r]? = some k ↔ key.role = r ∧ key = k := by
    rw [fromEldest, getElem?_insert_self_or]
    split <;> simp_all
  have hmem (r : Role) : r ∈ (fromEldest device key).sharedKeys ↔ r = .owner := by
    rw [← ExtTreeMap.isSome_getElem?_iff_mem, Option.isSome_iff_exists]
    simp only [hkeys, exists_and_left, exists_eq', and_true, hkey, eq_comm]
  refine ⟨?_, ?_, ?_, ?_, ?_, ?_, ?_, ?_, ?_⟩
  · intro k d h
    obtain ⟨hk, rfl⟩ := (hdevices k d).mp h
    exact hk
  · intro r k h
    obtain ⟨hr, rfl⟩ := (hkeys r k).mp h
    exact hr
  · exact ⟨_, device, (hdevices _ _).mpr ⟨rfl, rfl⟩, hdevice⟩
  · exact (hmem _).mpr rfl
  · rw [hmem]
    decide
  · intro r
    have hhistory : (fromEldest device key).sharedKeyHistory = [key] := rfl
    rw [hhistory, generationOf]
    by_cases hr : key.role = r
    · rw [(hkeys r key).mpr ⟨hr, rfl⟩]
      simp [hr, hgen]
    · have hnone : (fromEldest device key).sharedKeys[r]? = none := by
        rw [Option.eq_none_iff_forall_ne_some]
        exact fun k hk => hr ((hkeys r k).mp hk).1
      rw [hnone]
      simp [hr]
  · intro r k h
    obtain ⟨-, rfl⟩ := (hkeys r k).mp h
    exact List.mem_singleton_self _
  · exact List.nodup_singleton _
  · exact List.nodup_singleton _

theorem valid_of_eldest {digest : Digest} {scheme : SignatureScheme} {link : UserLink}
    {uid host : EntityId} (h : verifyUserEldest digest scheme link change hepks uid host = .ok s) :
    s.Valid := by
  obtain ⟨eldest, -, h⟩ := bind_eq_ok.mp h
  obtain ⟨_, -, h⟩ := bind_eq_ok.mp h
  obtain ⟨-, h⟩ := ite_error_eq_ok.mp h
  obtain ⟨persistentPuk, -, h⟩ := bind_eq_ok.mp h
  obtain ⟨-, h⟩ := ite_error_eq_ok.mp h
  obtain ⟨_, -, h⟩ := bind_eq_ok.mp h
  obtain ⟨deviceHepk, -, h⟩ := bind_eq_ok.mp h
  obtain ⟨pukHepk, -, h⟩ := bind_eq_ok.mp h
  obtain ⟨-, h⟩ := ite_error_eq_ok.mp h
  cases h
  exact valid_fromEldest rfl rfl rfl

/-! ## New keys -/

theorem generationOf_rotateKey (s : UserReplayState) (key : VerifiedSharedKey) (role : Role) :
    generationOf (s.rotateKey key).sharedKeys role =
      if key.role = role then key.generation.toNat else generationOf s.sharedKeys role := by
  rw [generationOf, rotateKey, getElem?_insert_self_or]
  by_cases hrole : key.role = role
  · rw [if_pos hrole, if_pos hrole]
  · rw [if_neg hrole, if_neg hrole]
    rfl

/-- After the first of several new keys, the others still fit. -/
theorem rotations_rotateKey {key : VerifiedSharedKey}
    (h : Rotations s.sharedKeys s.sharedKeyHistory (key :: rotated)) :
    Rotations (s.rotateKey key).sharedKeys (s.rotateKey key).sharedKeyHistory rotated := by
  have hsorted := List.pairwise_cons.mp h.sorted
  have hverify := List.nodup_cons.mp (List.map_cons .. ▸ h.verifyKeys)
  have hhepk := List.nodup_cons.mp (List.map_cons .. ▸ h.hepks)
  refine ⟨hsorted.2, fun k hk => h.role_ne k (List.mem_cons_of_mem _ hk), fun k hk => ?_,
    hverify.2, hhepk.2, fun k hk old hold => ?_⟩
  · rw [generationOf_rotateKey, if_neg (hsorted.1 k hk).ne]
    exact h.generation k (List.mem_cons_of_mem _ hk)
  · rcases List.mem_append.mp hold with hold | hold
    · exact h.fresh k (List.mem_cons_of_mem _ hk) old hold
    · rw [List.mem_singleton.mp hold]
      exact ⟨fun heq => hverify.1 (heq ▸ List.mem_map_of_mem hk),
        fun heq => hhepk.1 (heq ▸ List.mem_map_of_mem hk)⟩

theorem Valid.rotateKey (hs : s.Valid) {key : VerifiedSharedKey}
    (h : Rotations s.sharedKeys s.sharedKeyHistory (key :: rotated)) : (s.rotateKey key).Valid := by
  have hmem : key ∈ key :: rotated := List.mem_cons_self ..
  have hlookup (role : Role) (k : VerifiedSharedKey)
      (hk : (s.rotateKey key).sharedKeys[role]? = some k) :
      (key.role = role ∧ key = k) ∨ s.sharedKeys[role]? = some k := by
    rw [UserReplayState.rotateKey, getElem?_insert_self_or] at hk
    split at hk
    · exact .inl ⟨‹_›, Option.some.inj hk⟩
    · exact .inr hk
  refine ⟨hs.device_id, ?_, hs.owner, ?_, ?_, ?_, ?_, ?_, ?_⟩
  · intro role k hk
    rcases hlookup role k hk with ⟨hrole, rfl⟩ | hk
    · exact hrole
    · exact hs.key_role role k hk
  · exact ExtTreeMap.mem_insert.mpr (.inr hs.owner_key)
  · intro hnone
    rcases ExtTreeMap.mem_insert.mp hnone with heq | hnone
    · exact h.role_ne key hmem (Std.compare_eq_iff_eq.mp heq)
    · exact hs.none_not_mem hnone
  · intro role
    have hold := hs.generations role
    rw [generationOf_rotateKey, UserReplayState.rotateKey, List.filter_append, List.map_append,
      hold]
    by_cases hrole : key.role = role
    · subst hrole
      rw [if_pos rfl, h.generation key hmem, List.range'_concat]
      simp [h.generation key hmem, Nat.add_comm]
    · simp [hrole]
  · intro role k hk
    rcases hlookup role k hk with ⟨-, rfl⟩ | hk
    · exact List.mem_append_right _ (List.mem_singleton_self _)
    · exact List.mem_append_left _ (hs.current role k hk)
  · rw [UserReplayState.rotateKey, List.map_append, List.nodup_append]
    refine ⟨hs.verifyKeys, by simp, ?_⟩
    simpa using fun old hold => (h.fresh key hmem old hold).1
  · rw [UserReplayState.rotateKey, List.map_append, List.nodup_append]
    refine ⟨hs.hepks, by simp, ?_⟩
    simpa using fun old hold => (h.fresh key hmem old hold).2

theorem Valid.rotateKeys (hs : s.Valid) (h : Rotations s.sharedKeys s.sharedKeyHistory rotated) :
    (s.rotateKeys rotated).Valid := by
  induction rotated generalizing s with
  | nil => exact hs
  | cons key rotated ih => exact ih (hs.rotateKey h) (rotations_rotateKey h)

/-! ## Devices -/

theorem Valid.addDevice (hs : s.Valid) {device : VerifiedDevice}
    (hnew : device.id.bytes ∉ s.devices) :
    Valid { s with devices := s.devices.insert device.id.bytes device } := by
  have hlookup (key : List UInt8) (d : VerifiedDevice)
      (hd : (s.devices.insert device.id.bytes device)[key]? = some d) :
      (device.id.bytes = key ∧ device = d) ∨ s.devices[key]? = some d := by
    rw [getElem?_insert_self_or] at hd
    split at hd
    · exact .inl ⟨‹_›, Option.some.inj hd⟩
    · exact .inr hd
  refine ⟨fun key d hd => ?_, hs.key_role, ?_, hs.owner_key, hs.none_not_mem, hs.generations,
    hs.current, hs.verifyKeys, hs.hepks⟩
  · rcases hlookup key d hd with ⟨hkey, rfl⟩ | hd
    · exact hkey
    · exact hs.device_id key d hd
  · obtain ⟨key, owner, howner, hrole⟩ := hs.owner
    refine ⟨key, owner, ?_, hrole⟩
    rw [getElem?_insert_self_or, if_neg ?_]
    · exact howner
    · rintro rfl
      exact hnew (ExtTreeMap.isSome_getElem?_iff_mem.mp (howner ▸ rfl))

theorem exists_other_owner {key : List UInt8} (htarget : s.devices[key]? = some target)
    (hrole : target.role = .owner) (hcount : s.ownerCount ≠ 1) :
    ∃ (other : List UInt8) (device : VerifiedDevice),
      other ≠ key ∧ s.devices[other]? = some device ∧ device.role = .owner := by
  by_contra hno
  have hall : ∀ entry ∈ s.devices.toList, entry.2.role = .owner → entry.1 = key := by
    intro entry hentry howner
    by_contra hne
    exact hno ⟨entry.1, entry.2, hne, ExtTreeMap.mem_toList_iff_getElem?_eq_some.mp hentry, howner⟩
  -- all owner entries have one key, and no key occurs twice
  have howners : s.ownerCount =
      ((s.devices.toList.filter fun entry => entry.2.role = .owner).map Prod.fst).length := by
    rw [ownerCount, sortedValues, List.filter_map, List.length_map, List.length_map]
    rfl
  have hnodup : ((s.devices.toList.filter fun entry => entry.2.role = .owner).map
      Prod.fst).Nodup :=
    (nodup_keys_toList s.devices).sublist (List.filter_sublist.map _)
  have hone : ((s.devices.toList.filter fun entry => entry.2.role = .owner).map Prod.fst) =
      [key] := by
    rw [← List.perm_singleton, List.perm_ext_iff_of_nodup hnodup (List.nodup_singleton _)]
    intro k
    simp only [List.mem_map, List.mem_filter, decide_eq_true_eq, List.mem_singleton]
    constructor
    · rintro ⟨entry, ⟨hentry, howner⟩, rfl⟩
      exact hall entry hentry howner
    · rintro rfl
      exact ⟨(k, target), ⟨ExtTreeMap.mem_toList_iff_getElem?_eq_some.mpr htarget, hrole⟩, rfl⟩
  rw [howners, hone] at hcount
  exact hcount rfl

theorem Valid.revoke (hs : s.Valid) (h : s.Revokes member signer target rotated) :
    (s.revoke member signer target).Valid := by
  have hlookup (key : List UInt8) (d : VerifiedDevice) :
      (s.revoke member signer target).devices[key]? = some d ↔
        key ≠ member.entity.bytes ∧ s.devices[key]? = some d := by
    rw [UserReplayState.revoke, ExtTreeMap.getElem?_erase]
    simp only [Std.compare_eq_iff_eq]
    split
    · simp_all
    · simp_all [eq_comm]
  refine ⟨fun key d hd => hs.device_id key d ((hlookup key d).mp hd).2, hs.key_role, ?_,
    hs.owner_key, hs.none_not_mem, hs.generations, hs.current, hs.verifyKeys, hs.hepks⟩
  obtain ⟨key, owner, howner, hrole⟩ := hs.owner
  by_cases hkey : key = member.entity.bytes
  · -- the owner at hand goes, so another one is left
    subst hkey
    obtain rfl : target = owner := Option.some.inj (h.target_eq.symm.trans howner)
    obtain ⟨other, device, hne, hother, hotherRole⟩ :=
      exists_other_owner howner hrole (h.notLast hrole)
    exact ⟨other, device, (hlookup other device).mpr ⟨hne, hother⟩, hotherRole⟩
  · exact ⟨key, owner, (hlookup key owner).mpr ⟨hkey, howner⟩, hrole⟩

/-! ## One link, and runs of links -/

theorem Valid.replay {digest : Digest} {scheme : SignatureScheme} {link : UserLink}
    {host : EntityId} (hs : s.Valid) (h : s.replay digest scheme link change hepks host = .ok s') :
    s'.Valid := by
  obtain ⟨signer, rotated, -, hrot, -, hcase⟩ := replay_cases h
  cases hcase with
  | provision member device _ _ _ hnew => exact (hs.addDevice hnew).rotateKeys hrot
  | revocation member target _ _ hrevokes => exact (hs.revoke hrevokes).rotateKeys hrot
  | standalone => exact hs.rotateKeys hrot

end UserReplayState

/-- A link with what its replay reads besides the state. -/
structure UserStep where
  link : UserLink
  change : UserGroupChange
  hepks : List Hepk

/-- The replay of links in order. -/
def replayAll (digest : Digest) (scheme : SignatureScheme) (host : EntityId)
    (s : UserReplayState) (steps : List UserStep) : Except Error UserReplayState :=
  steps.foldlM (fun s step => s.replay digest scheme step.link step.change step.hepks host) s

theorem UserReplayState.Valid.replayAll {digest : Digest} {scheme : SignatureScheme}
    {host : EntityId} {steps : List UserStep} (hs : s.Valid)
    (h : replayAll digest scheme host s steps = .ok s') : s'.Valid :=
  foldlM_invariant (fun _ _ _ _ hs hstep => hs.replay hstep) hs h

/-- A link that changes the devices or the keys is signed by an owner device. -/
theorem UserReplayState.Valid.signed_by_owner {digest : Digest} {scheme : SignatureScheme}
    {link : UserLink} {host : EntityId} (hs : s.Valid)
    (h : s.replay digest scheme link change hepks host = .ok s')
    (hchanged : s'.devices ≠ s.devices ∨ s'.sharedKeys ≠ s.sharedKeys) : ∃ signer : VerifiedDevice,
      s.devices[change.signer.bytes]? = some signer ∧ signer.id = change.signer ∧
      signer.role = .owner ∧ SignedBy digest scheme link signer.id := by
  obtain ⟨signer, rotated, hsigner, -, hsigned, hcase⟩ := replay_cases h
  refine ⟨signer, hsigner, EntityId.ext (hs.device_id _ _ hsigner), ?_, hsigned⟩
  cases hcase with
  | provision member device _ _ howner _ => exact howner
  | revocation member target _ _ hrevokes => exact hrevokes.owner
  | standalone _ howner =>
    cases rotated with
    | nil =>
      rcases hchanged with hdev | hkeys
      · exact absurd rfl hdev
      · exact absurd rfl hkeys
    | cons key rotated => exact howner (List.cons_ne_nil _ _)

/-! ## A sample run

A user with one device enrols a second one; the second revokes the first and replaces the key the
first could read. Signatures are not looked at. -/

namespace Sample

open LinkSample

def scheme : SignatureScheme where
  ed25519PublicKey _ := true
  ed25519Verify _ _ _ := true
  p256PublicKey _ := true
  p256VerifyPrehash _ _ _ := true

def eldestChange : UserGroupChange :=
  ⟨⟨1, none, root, 0, key 0⟩, uid, host, device 3,
    [⟨.owner, device 3, none, .none, .user (fingerprint 3) none⟩],
    [⟨1, .owner, puk 1, fingerprint 1⟩], [.username (key 0), .deviceName (key 0), .eldest (key 0)]⟩

def eldest : UserStep := ⟨link eldestChange.value 2, eldestChange, [hepk 3, hepk 1]⟩

def enrol : UserStep := ⟨link enrolChange.value 2, enrolChange, [hepk 4]⟩

def revokeChange : UserGroupChange :=
  ⟨⟨3, some (key 0), root, 0, key 0⟩, uid, host, device 4,
    [⟨.none, device 3, none, .none, .none⟩], [⟨2, .owner, puk 2, fingerprint 2⟩], []⟩

def revoke : UserStep := ⟨link revokeChange.value 2, revokeChange, [hepk 2]⟩

/-- The states along the run. -/
def run : Except Error (UserReplayState × UserReplayState × UserReplayState) := do
  let s₀ ← verifyUserEldest digest scheme eldest.link eldest.change eldest.hepks uid host
  let s₁ ← replayAll digest scheme host s₀ [enrol]
  let s₂ ← s₁.replay digest scheme revoke.link revoke.change revoke.hepks host
  .ok (s₀, s₁, s₂)

theorem run_ok : ∃ s₀ s₁ s₂,
    verifyUserEldest digest scheme eldest.link eldest.change eldest.hepks uid host = .ok s₀ ∧
    replayAll digest scheme host s₀ [enrol] = .ok s₁ ∧
    s₁.replay digest scheme revoke.link revoke.change revoke.hepks host = .ok s₂ ∧
    (s₁.devices[(device 3).bytes]?.map (·.role)) = some .owner ∧
    (s₁.sharedKeys[Role.owner]?.map (·.generation)) = some 1 ∧
    (s₂.sharedKeys[Role.owner]?.map (·.generation)) = some 2 := by
  have hrun : (run.toOption.any fun (_, s₁, s₂) =>
      s₁.devices[(device 3).bytes]?.map (·.role) == some .owner &&
      s₁.sharedKeys[Role.owner]?.map (·.generation) == some 1 &&
      s₂.sharedKeys[Role.owner]?.map (·.generation) == some 2) = true := by decide +kernel
  obtain ⟨⟨s₀, s₁, s₂⟩, h, hrun⟩ := exists_of_toOption_any hrun
  simp only [Bool.and_eq_true, beq_iff_eq] at hrun
  obtain ⟨t₀, h₀, h⟩ := bind_eq_ok.mp h
  obtain ⟨t₁, h₁, h⟩ := bind_eq_ok.mp h
  obtain ⟨t₂, h₂, h⟩ := bind_eq_ok.mp h
  cases h
  exact ⟨s₀, s₁, s₂, h₀, h₁, h₂, hrun.1.1, hrun.1.2, hrun.2⟩

end Sample

/-- The invariants of user replay: in every state that is reached from an accepted eldest link by
    accepted links there is an owner device and an owner key, the keys of a role in the history
    have the generations from one to the current one, no key material occurs twice, and no key has
    the role none. Every link on the way that changed the devices or the keys was signed by a
    device that was an owner just before. -/
theorem userReplay_invariants {digest : Digest} {scheme : SignatureScheme} {uid host : EntityId}
    {eldest : UserStep} {steps : List UserStep} {s₀ s : UserReplayState}
    (heldest : verifyUserEldest digest scheme eldest.link eldest.change eldest.hepks uid host =
      .ok s₀)
    (hsteps : replayAll digest scheme host s₀ steps = .ok s) :
    (∃ device ∈ sortedValues s.devices, device.role = .owner) ∧
    (∃ key : VerifiedSharedKey, s.sharedKeys[Role.owner]? = some key) ∧
    (∀ role, (s.sharedKeyHistory.filter fun key => key.role = role).map
      (fun key => key.generation.toNat) = List.range' 1 (generationOf s.sharedKeys role)) ∧
    (s.sharedKeyHistory.map (·.verifyKey)).Nodup ∧ (s.sharedKeyHistory.map (·.hepk)).Nodup ∧
    Role.none ∉ s.sharedKeys ∧
    ∀ pre step post before after, steps = pre ++ step :: post →
      replayAll digest scheme host s₀ pre = .ok before →
      before.replay digest scheme step.link step.change step.hepks host = .ok after →
      (after.devices ≠ before.devices ∨ after.sharedKeys ≠ before.sharedKeys) →
      ∃ signer : VerifiedDevice, before.devices[step.change.signer.bytes]? = some signer ∧
        signer.id = step.change.signer ∧ signer.role = .owner ∧
        SignedBy digest scheme step.link signer.id := by
  have hvalid₀ := UserReplayState.valid_of_eldest heldest
  have hvalid := hvalid₀.replayAll hsteps
  refine ⟨?_, ?_, hvalid.generations, hvalid.verifyKeys, hvalid.hepks, hvalid.none_not_mem, ?_⟩
  · obtain ⟨key, device, hdevice, hrole⟩ := hvalid.owner
    exact ⟨device, mem_sortedValues.mpr ⟨key, hdevice⟩, hrole⟩
  · exact Option.isSome_iff_exists.mp (ExtTreeMap.isSome_getElem?_iff_mem.mpr hvalid.owner_key)
  · intro pre step post before after _ hpre hstep hchanged
    exact (hvalid₀.replayAll hpre).signed_by_owner hstep hchanged

open LinkSample (digest uid host)
open Sample

/-- After the rotation the owners have keys of two generations, and the second device signed it. -/
theorem userReplay_invariants_rotation : ∃ s₀ s₁ s,
    verifyUserEldest digest scheme eldest.link eldest.change eldest.hepks uid host = .ok s₀ ∧
    replayAll digest scheme host s₀ [enrol] = .ok s₁ ∧
    replayAll digest scheme host s₀ [enrol, revoke] = .ok s ∧
    (s.sharedKeyHistory.filter fun key => key.role = .owner).map
      (fun key => key.generation.toNat) = [1, 2] ∧
    (s.sharedKeyHistory.map (·.verifyKey)).Nodup ∧ (s.sharedKeyHistory.map (·.hepk)).Nodup ∧
    ∃ signer : VerifiedDevice, s₁.devices[revoke.change.signer.bytes]? = some signer ∧
      signer.id = LinkSample.device 4 ∧ signer.role = .owner ∧
      SignedBy digest scheme revoke.link signer.id := by
  obtain ⟨s₀, s₁, s, h₀, h₁, h₂, -, hbefore, hafter⟩ := run_ok
  have hrun : replayAll digest scheme host s₀ ([enrol] ++ [revoke]) = .ok s := by
    rw [replayAll, List.foldlM_append]
    exact bind_of_ok h₁ (foldlM_cons_eq_ok.mpr ⟨s, h₂, rfl⟩)
  obtain ⟨-, -, hgenerations, hkeys, hhepks, -, hsigned⟩ := userReplay_invariants h₀ hrun
  have howner := hgenerations .owner
  obtain ⟨key, hkey, hgen⟩ := Option.map_eq_some_iff.mp hafter
  simp only [generationOf, hkey, hgen] at howner
  have hchanged : s.sharedKeys ≠ s₁.sharedKeys := by
    intro heq
    rw [heq, hbefore] at hafter
    cases hafter
  exact ⟨s₀, s₁, s, h₀, h₁, hrun, howner, hkeys, hhepks,
    hsigned [enrol] revoke [] s₁ s rfl h₁ h₂ (.inr hchanged)⟩

/-! ## Keys a revoked device could read -/

variable {role : Role}

namespace UserReplayState

/-- A key of the generation is out of use, or its role is marked. -/
def Superseded (s : UserReplayState) (role : Role) (generation : Nat) : Prop :=
  generation ≤ generationOf s.sharedKeys role ∧
    (generation < generationOf s.sharedKeys role ∨ role ∈ s.staleSharedKeyRoles)

/-- A new key clears a mark only by raising the generation. -/
theorem Superseded.rotateKeys {generation : Nat}
    (hrot : Rotations s.sharedKeys s.sharedKeyHistory rotated) (hs : s.Superseded role generation) :
    (s.rotateKeys rotated).Superseded role generation := by
  induction rotated generalizing s with
  | nil => exact hs
  | cons key rotated ih =>
    refine ih (rotations_rotateKey hrot) ?_
    have hgen := hrot.generation key List.mem_cons_self
    obtain ⟨hle, hcase⟩ := hs
    rw [Superseded, generationOf_rotateKey]
    by_cases hrole : key.role = role
    · subst hrole
      rw [if_pos rfl]
      exact ⟨by omega, .inl (by omega)⟩
    · rw [if_neg hrole]
      refine ⟨hle, hcase.imp_right fun hstale => ?_⟩
      rw [rotateKey, ExtTreeSet.mem_erase]
      exact ⟨fun heq => hrole (Std.compare_eq_iff_eq.mp heq), hstale⟩

theorem mem_revoke_stale (h : role ∈ s.staleSharedKeyRoles ∨
      (target.id = signer.id ∧ role ∈ s.sharedKeys ∧ role ≤ target.role)) :
    role ∈ (s.revoke member signer target).staleSharedKeyRoles := by
  rw [revoke]
  by_cases hself : target.id = signer.id
  · simp only [hself, beq_self_eq_true, if_true]
    rw [ExtTreeSet.mem_insertMany_list]
    refine h.imp_right fun ⟨_, hrole, hle⟩ => List.contains_iff_mem.mpr ?_
    exact List.mem_filter.mpr ⟨ExtTreeMap.mem_keys.mpr hrole, by simpa using hle⟩
  · rw [if_neg (by simpa using hself)]
    exact h.resolve_right fun ⟨heq, _⟩ => hself heq

theorem Superseded.replay {digest : Digest} {scheme : SignatureScheme} {link : UserLink}
    {host : EntityId} {generation : Nat} (hs : s.Superseded role generation)
    (h : s.replay digest scheme link change hepks host = .ok s') :
    s'.Superseded role generation := by
  obtain ⟨signer, rotated, -, hrot, -, hcase⟩ := replay_cases h
  cases hcase with
  | provision member device => exact Superseded.rotateKeys hrot hs
  | revocation member target _ _ _ =>
    refine Superseded.rotateKeys hrot ⟨hs.1, hs.2.imp_right fun hstale => ?_⟩
    exact mem_revoke_stale (.inl hstale)
  | standalone => exact Superseded.rotateKeys hrot hs

theorem generationOf_le_rotateKeys (hrot : Rotations s.sharedKeys s.sharedKeyHistory rotated)
    (role : Role) :
    generationOf s.sharedKeys role ≤ generationOf (s.rotateKeys rotated).sharedKeys role := by
  induction rotated generalizing s with
  | nil => exact le_refl _
  | cons key rotated ih =>
    refine le_trans ?_ (ih (rotations_rotateKey hrot))
    rw [generationOf_rotateKey]
    split
    · rename_i hrole
      rw [hrot.generation key List.mem_cons_self, hrole]
      omega
    · exact le_refl _

theorem generationOf_lt_rotateKeys {s : UserReplayState} {rotated : List VerifiedSharedKey}
    (hrot : Rotations s.sharedKeys s.sharedKeyHistory rotated) {key : VerifiedSharedKey}
    (hkey : key ∈ rotated) : generationOf s.sharedKeys key.role <
      generationOf (s.rotateKeys rotated).sharedKeys key.role := by
  induction rotated generalizing s with
  | nil => cases hkey
  | cons first rotated ih =>
    have hrest := rotations_rotateKey hrot
    rcases List.mem_cons.mp hkey with rfl | hkey
    · refine lt_of_lt_of_le ?_ (generationOf_le_rotateKeys hrest key.role)
      rw [generationOf_rotateKey, if_pos rfl, hrot.generation key List.mem_cons_self]
      omega
    · refine lt_of_le_of_lt ?_ (ih hrest hkey)
      have hfirst : Rotations s.sharedKeys s.sharedKeyHistory [first] :=
        hrot.sublist (List.singleton_sublist.mpr List.mem_cons_self)
      exact generationOf_le_rotateKeys hfirst key.role

/-- A revocation supersedes every key the device could read. -/
theorem superseded_of_revokes (hrevokes : s.Revokes member signer target rotated)
    (hrot : Rotations s.sharedKeys s.sharedKeyHistory rotated) (hrole : role ∈ s.sharedKeys)
    (hle : role ≤ target.role) :
    ((s.revoke member signer target).rotateKeys rotated).Superseded role
      (generationOf s.sharedKeys role) := by
  by_cases hself : target.id = signer.id
  · rw [hrevokes.self hself]
    exact ⟨le_refl _, .inr (mem_revoke_stale (.inr ⟨hself, hrole, hle⟩))⟩
  · obtain ⟨key, hkey, rfl⟩ := hrevokes.replaced hself role hrole hle
    have hlt := @generationOf_lt_rotateKeys (s.revoke member signer target) _ hrot key hkey
    exact ⟨hlt.le, .inl hlt⟩

end UserReplayState

/-- Forward secrecy of revocation: after a link that removes a device, each key the device could
    read is replaced by one of a higher generation, or its role is marked, in every later state.
    This needs nothing of the state before the link. -/
theorem revocation_supersedes {digest : Digest} {scheme : SignatureScheme} {host : EntityId}
    {step : UserStep} {post : List UserStep} {before after later : UserReplayState}
    (hstep : before.replay digest scheme step.link step.change step.hepks host = .ok after)
    (hpost : replayAll digest scheme host after post = .ok later)
    {member : UserMemberChange} (hmember : member ∈ step.change.changes)
    (hnone : member.role = .none) {target : VerifiedDevice}
    (htarget : before.devices[member.entity.bytes]? = some target)
    {role : Role} {key : VerifiedSharedKey} (hkey : before.sharedKeys[role]? = some key)
    (hle : role ≤ target.role) :
    (∃ current : VerifiedSharedKey,
      later.sharedKeys[role]? = some current ∧ key.generation < current.generation) ∨
      role ∈ later.staleSharedKeyRoles := by
  have hgen : generationOf before.sharedKeys role = key.generation.toNat := by
    rw [generationOf, hkey]
  have hrole : role ∈ before.sharedKeys :=
    ExtTreeMap.isSome_getElem?_iff_mem.mp (hkey ▸ rfl)
  obtain ⟨signer, rotated, -, hrot, -, hcase⟩ := UserReplayState.replay_cases hstep
  have hafter : after.Superseded role key.generation.toNat := by
    cases hcase with
    | provision added device hchange hadded =>
      rw [hchange, List.mem_singleton] at hmember
      exact absurd (hmember ▸ hnone) hadded
    | revocation removed device hchange _ hrevokes =>
      rw [hchange, List.mem_singleton] at hmember
      subst hmember
      obtain rfl : device = target := Option.some.inj (hrevokes.target_eq.symm.trans htarget)
      rw [← hgen]
      exact UserReplayState.superseded_of_revokes hrevokes hrot hrole hle
    | standalone hchange =>
      rw [hchange] at hmember
      cases hmember
  have hlater : later.Superseded role key.generation.toNat :=
    foldlM_invariant (P := fun s => s.Superseded role key.generation.toNat)
      (fun _ _ _ _ hs hstep => hs.replay hstep) hafter hpost
  refine hlater.2.imp_left fun hlt => ?_
  cases hcur : later.sharedKeys[role]? with
  | none =>
    rw [generationOf, hcur] at hlt
    exact absurd hlt (Nat.not_lt_zero _)
  | some current =>
    rw [generationOf, hcur] at hlt
    exact ⟨current, rfl, UInt64.lt_iff_toNat_lt.mpr hlt⟩

theorem revocation_supersedes_sample : ∃ s₀ s₁ s₂,
    verifyUserEldest digest scheme eldest.link eldest.change eldest.hepks uid host = .ok s₀ ∧
    replayAll digest scheme host s₀ [enrol] = .ok s₁ ∧
    s₁.replay digest scheme revoke.link revoke.change revoke.hepks host = .ok s₂ ∧
    ((∃ current : VerifiedSharedKey,
      s₂.sharedKeys[Role.owner]? = some current ∧ 1 < current.generation) ∨
      Role.owner ∈ s₂.staleSharedKeyRoles) := by
  obtain ⟨s₀, s₁, s₂, h₀, h₁, h₂, hdevice, hkey, -⟩ := run_ok
  obtain ⟨target, htarget, hrole⟩ := Option.map_eq_some_iff.mp hdevice
  obtain ⟨key, hkey, hgen⟩ := Option.map_eq_some_iff.mp hkey
  refine ⟨s₀, s₁, s₂, h₀, h₁, h₂, ?_⟩
  rw [← hgen]
  have hpost : replayAll digest scheme host s₂ [] = .ok s₂ := rfl
  exact revocation_supersedes h₂ hpost (List.mem_singleton_self _) rfl htarget hkey hrole.ge

end Foks.Verify
