/-
  Which keys speak for a host.

  The state that a host chain leads to is compared with the items of its links. For a delegate the
  last item that mentions it decides, and for a TLS CA the last certificate or revocation
  (`Follows.delegate`, `Follows.tlsCa`). A host key signs only after a link has brought it and
  before any link revokes it, however often it was added again (`verifyHostchain_discipline`).
-/
import Foks.Lib.LastWrite
import Foks.Verify.Hostchain
import Foks.Verify.UserInvariant

namespace Foks.Verify

open Foks.Lib Foks.Snowpack Foks.Crypto Foks.Proto

/-! ## Items -/

namespace HostchainItem

/-- The key an item is about. -/
def subject : HostchainChangeItem → EntityId
  | .revoke key => key
  | .key key => key
  | .tlsCa id _ => id

def isAddition : HostchainChangeItem → Bool
  | .revoke _ => false
  | .key _ => true
  | .tlsCa _ _ => true

def mentions (key : EntityId) (item : HostchainChangeItem) : Bool := subject item = key

/-- The items that set or clear the certificate of a TLS CA. -/
def decidesTlsCa (id : EntityId) : HostchainChangeItem → Bool
  | .revoke key => key = id
  | .key _ => false
  | .tlsCa other _ => other = id

/-- The certificate that such an item leaves. -/
def certificates (id : EntityId) : HostchainChangeItem → List (EntityId × List UInt8)
  | .tlsCa _ certificate => [(id, certificate)]
  | _ => []

end HostchainItem

open HostchainItem

variable {s : HostchainState} {items : List HostchainChangeItem}
  {chain : List (HostchainLink × HostchainChange)} {change : HostchainChange}

section

variable {key added revoked id : EntityId} {scheme : SignatureScheme}

namespace HostchainState

def isActive (s : HostchainState) (key : EntityId) : Bool := key ∈ s.activeKeys key.entityType

/-- The certificates of a TLS CA. -/
def certificatesOf (s : HostchainState) (id : EntityId) : List (EntityId × List UInt8) :=
  s.tlsCas.filter (·.1 = id)

theorem isActive_iff : s.isActive key ↔ key ∈ s.keysOf key.entityType ∧ key ∉ s.revoked := by
  simp [isActive, activeKeys]

theorem mem_keysOf_addKey {kind : UInt8} : key ∈ (s.addKey added).keysOf kind ↔
      key ∈ s.keysOf kind ∨ (key = added ∧ added.entityType = kind) := by
  unfold addKey keysOf
  simp only [getElem?_insert_self_or]
  split
  · rename_i hkind
    subst hkind
    simp
  · rename_i hkind
    simp [hkind]

theorem mem_revoked_addKey : key ∈ (s.addKey added).revoked ↔
      key ∈ s.revoked ∧ (key = added → added.entityType = entityHost) := by
  unfold addKey
  split
  · rename_i hkind
    simp only [List.mem_filter, decide_eq_true_eq]
    exact and_congr_right fun _ => ⟨fun hne heq => absurd heq hne, fun h heq => hkind (h heq)⟩
  · rename_i hkind
    simp only [ne_eq, not_not] at hkind
    simp [hkind]

theorem mem_keysOf_revoke {kind : UInt8} : key ∈ (s.revoke revoked).keysOf kind ↔
      key ∈ s.keysOf kind ∧ (key = revoked → revoked.entityType ≠ kind) := by
  unfold revoke keysOf
  cases hkeys : s.keys[revoked.entityType]? with
  | none =>
    constructor
    · intro h
      refine ⟨h, ?_⟩
      rintro rfl rfl
      simp [hkeys] at h
    · exact fun h => h.1
  | some keys =>
    simp only [getElem?_insert_self_or]
    split
    · rename_i hkind
      subst hkind
      simp [hkeys]
    · rename_i hkind
      simp [hkind]

theorem mem_revoked_revoke :
    key ∈ (s.revoke revoked).revoked ↔ key = revoked ∨ key ∈ s.revoked := by
  simp [revoke]

/-- Adding a key makes a delegate active, and leaves the other keys alone. -/
theorem isActive_addKey (h : key.entityType ≠ entityHost) :
    (s.addKey added).isActive key = if added = key then true else s.isActive key := by
  rw [Bool.eq_iff_iff, isActive_iff, mem_keysOf_addKey, mem_revoked_addKey]
  by_cases heq : added = key
  · subst heq
    simp [h]
  · have hne : ¬ key = added := fun h => heq h.symm
    simp [heq, hne, isActive_iff]

theorem isActive_revoke :
    (s.revoke revoked).isActive key = if revoked = key then false else s.isActive key := by
  rw [Bool.eq_iff_iff, isActive_iff, mem_keysOf_revoke, mem_revoked_revoke]
  by_cases heq : revoked = key
  · subst heq
    simp
  · have hne : ¬ key = revoked := fun h => heq h.symm
    simp [heq, hne, isActive_iff]

variable {item : HostchainChangeItem}

theorem isActive_apply (h : key.entityType ≠ entityHost) :
    (s.apply item).isActive key =
    if mentions key item then isAddition item else s.isActive key := by
  unfold mentions
  simp only [decide_eq_true_eq]
  cases item with
  | revoke revoked => exact isActive_revoke
  | key added => exact isActive_addKey h
  | tlsCa id certificate =>
    have hkeys : (s.addTlsCa id certificate).isActive key = (s.addKey id).isActive key := rfl
    exact hkeys.trans (isActive_addKey h)

theorem filter_filter_ne {cas : List (EntityId × List UInt8)} {a b : EntityId} :
    (cas.filter (·.1 ≠ a)).filter (·.1 = b) = if a = b then [] else cas.filter (·.1 = b) := by
  rw [List.filter_filter]
  split
  · rename_i heq
    subst heq
    simp
  · rename_i hne
    refine List.filter_congr fun entry _ => ?_
    by_cases hentry : entry.1 = b
    · have : ¬ b = a := fun h => hne h.symm
      simp [hentry, this]
    · simp [hentry]

theorem certificatesOf_apply : (s.apply item).certificatesOf id =
      if decidesTlsCa id item then certificates id item else s.certificatesOf id := by
  cases item with
  | revoke key =>
    have hcas : (s.revoke key).tlsCas = s.tlsCas.filter (·.1 ≠ key) := rfl
    simp only [apply, certificatesOf, hcas, filter_filter_ne, decidesTlsCa, certificates,
      decide_eq_true_eq]
  | key key => rfl
  | tlsCa other certificate =>
    have hcas : (s.addTlsCa other certificate).tlsCas =
      s.tlsCas.filter (·.1 ≠ other) ++ [(other, certificate)] := rfl
    simp only [apply, certificatesOf, hcas, List.filter_append, filter_filter_ne, decidesTlsCa,
      certificates, decide_eq_true_eq]
    by_cases heq : other = id
    · simp [heq]
    · simp [heq]

/-! ## The items of one link -/

theorem isActive_foldl (h : key.entityType ≠ entityHost) :
    (items.foldl apply s).isActive key =
      (lastSuch (mentions key) items).elim (s.isActive key) isAddition :=
  foldl_view (fun t => t.isActive key)
    (fun item _ hother t => by rw [isActive_apply h, if_neg hother])
    (fun item _ hmentions t => by rw [isActive_apply h, if_pos hmentions]) s

theorem certificatesOf_foldl : (items.foldl apply s).certificatesOf id =
      (lastSuch (decidesTlsCa id) items).elim (s.certificatesOf id) (certificates id) :=
  foldl_view (fun t => t.certificatesOf id)
    (fun item _ hother t => by rw [certificatesOf_apply, if_neg hother])
    (fun item _ hdecides t => by rw [certificatesOf_apply, if_pos hdecides]) s

theorem mem_hostKeys_foldl (hkinds : ∀ id certificate, .tlsCa id certificate ∈ items →
      id.entityType = entityHostTlsCa) (h : key ∈ (items.foldl apply s).keysOf entityHost) :
    key ∈ s.keysOf entityHost ∨ .key key ∈ items := by
  induction items generalizing s with
  | nil => exact .inl h
  | cons item items ih =>
    have hrest := ih (fun id certificate hitem =>
      hkinds id certificate (List.mem_cons_of_mem _ hitem)) h
    rcases hrest with hmid | hmem
    · cases item with
      | revoke revoked => exact .inl (mem_keysOf_revoke.mp hmid).1
      | key added =>
        rcases mem_keysOf_addKey.mp hmid with hold | ⟨rfl, -⟩
        · exact .inl hold
        · exact .inr List.mem_cons_self
      | tlsCa id certificate =>
        have hid := hkinds id certificate List.mem_cons_self
        have hmid : key ∈ (s.addKey id).keysOf entityHost := hmid
        rcases mem_keysOf_addKey.mp hmid with hold | ⟨-, hkind⟩
        · exact .inl hold
        · rw [hid] at hkind
          exact absurd hkind (by decide)
    · exact .inr (List.mem_cons_of_mem _ hmem)

theorem mem_revoked_apply (hkind : key.entityType = entityHost)
    (h : key ∈ s.revoked ∨ item = .revoke key) : key ∈ (s.apply item).revoked := by
  have hadd (added : EntityId) (hold : key ∈ s.revoked) : key ∈ (s.addKey added).revoked :=
    mem_revoked_addKey.mpr ⟨hold, fun heq => heq ▸ hkind⟩
  cases item with
  | revoke revoked =>
    rcases h with hold | heq
    · exact mem_revoked_revoke.mpr (.inr hold)
    · cases heq
      exact mem_revoked_revoke.mpr (.inl rfl)
  | key added =>
    rcases h with hold | heq
    · exact hadd added hold
    · cases heq
  | tlsCa id certificate =>
    rcases h with hold | heq
    · exact hadd id hold
    · cases heq

theorem mem_revoked_foldl (hkind : key.entityType = entityHost)
    (h : key ∈ s.revoked ∨ .revoke key ∈ items) : key ∈ (items.foldl apply s).revoked := by
  induction items generalizing s with
  | nil => exact h.resolve_right (List.not_mem_nil)
  | cons item items ih =>
    refine ih ?_
    rcases h with hold | hmem
    · exact .inl (mem_revoked_apply hkind (.inl hold))
    · rcases List.mem_cons.mp hmem with heq | hrest
      · exact .inl (mem_revoked_apply hkind (.inr heq.symm))
      · exact .inr hrest

end HostchainState

/-! ## Whole chains -/

/-- The hash by which the next link names a link. -/
def hostchainLinkHash (digest : Digest) (link : HostchainLink) : Hash :=
  Crypto.prefixedHash digest hostchainLinkOuterTypeId (wire link.toValue)

/-- Links, each with the change that it carries. -/
abbrev LinkedChanges := List (HostchainLink × HostchainChange)

/-- A link that signed the first change, or brought the key. -/
def Introduces (key : EntityId) (chain : LinkedChanges) : Prop :=
  (∃ genesis, chain.head? = some genesis ∧ genesis.2.signer = key) ∨
    ∃ entry ∈ chain, .key key ∈ entry.2.changes

def itemsOf (chain : LinkedChanges) : List HostchainChangeItem :=
  chain.flatMap (·.2.changes)

/-- What a link has to do with the links before it. -/
structure LinkDiscipline (digest : Digest) (scheme : SignatureScheme)
    (before : LinkedChanges) (link : HostchainLink)
    (change : HostchainChange) : Prop where
  decoded : link.decodeChange = .ok change
  seqno : change.chainer.seqno.toNat = before.length + 1
  /-- The first link names no link before it. -/
  previous : change.chainer.previous =
    before.getLast?.map fun entry => hostchainLinkHash digest entry.1
  host : ∀ entry ∈ before, entry.2.host = change.host
  genesis : before = [] → change.signer = change.host
  signer_host : change.signer.entityType = entityHost
  introduced : before ≠ [] → Introduces change.signer before
  unrevoked : ∀ entry ∈ before, .revoke change.signer ∉ entry.2.changes
  /-- The last signature is the signer's. -/
  signed : ∃ front signature bytes, link.signatures = front ++ [signature] ∧
    link.signingBytes front.length = .ok bytes ∧
    verifySignature digest scheme change.signer signature hostchainLinkOuterV1TypeId bytes = .ok ()

/-- The state is the one that the chain leads to. -/
structure Follows (digest : Digest) (chain : LinkedChanges)
    (s : HostchainState) : Prop where
  seqno : s.seqno.toNat = chain.length
  host : ∀ entry ∈ chain, s.host = some entry.2.host
  tail : ∀ entry, chain.getLast? = some entry → s.tail = hostchainLinkHash digest entry.1
  hostKeys : ∀ key ∈ s.keysOf entityHost, Introduces key chain
  revoked : ∀ key, key.entityType = entityHost → ∀ entry ∈ chain,
    .revoke key ∈ entry.2.changes → key ∈ s.revoked
  delegate : ∀ key, key.entityType ≠ entityHost →
    s.isActive key = (lastSuch (mentions key) (itemsOf chain)).elim false isAddition
  tlsCa : ∀ id, s.certificatesOf id =
    (lastSuch (decidesTlsCa id) (itemsOf chain)).elim [] (certificates id)

theorem follows_start (digest : Digest) : Follows digest [] .start where
  seqno := rfl
  host _ h := by cases h
  tail _ h := by cases h
  hostKeys key h := by simp [HostchainState.keysOf, HostchainState.start] at h
  revoked _ _ _ h := by cases h
  delegate key _ := by
    simp [HostchainState.isActive, HostchainState.activeKeys, HostchainState.keysOf,
      HostchainState.start, itemsOf, lastSuch]
  tlsCa _ := rfl

theorem Introduces.append (h : Introduces key chain)
    (rest : LinkedChanges) :
    Introduces key (chain ++ rest) := by
  rcases h with ⟨genesis, hhead, hsigner⟩ | ⟨entry, hentry, hkey⟩
  · exact .inl ⟨genesis, by rw [List.head?_append, hhead]; rfl, hsigner⟩
  · exact .inr ⟨entry, List.mem_append_left _ hentry, hkey⟩

variable {digest : Digest} {parser : CertificateParser} {prior : HostchainState}

theorem itemLoop_eq_ok {s' : HostchainState} {added keys : List EntityId}
    (h : itemLoop parser items s added = .ok (s', keys)) :
    s' = items.foldl HostchainState.apply s := by
  induction items generalizing s added with
  | nil =>
    cases h
    rfl
  | cons item items ih =>
    obtain ⟨key, -, h⟩ := bind_eq_ok.mp h
    exact ih h

/-- The signature over a place of the stack. -/
theorem signatureLoop_mem {link : HostchainLink} {start : Nat} {front : List (Signature × EntityId)}
    {signature : Signature} {rest : List (Signature × EntityId)}
    (h : signatureLoop digest scheme link start (front ++ (signature, key) :: rest) = .ok ()) :
    ∃ bytes, link.signingBytes (start + front.length) = .ok bytes ∧
      verifySignature digest scheme key signature hostchainLinkOuterV1TypeId bytes = .ok () := by
  induction front generalizing start with
  | nil =>
    obtain ⟨bytes, hbytes, h⟩ := bind_eq_ok.mp h
    obtain ⟨_, hsignature, -⟩ := bind_eq_ok.mp h
    exact ⟨bytes, protocol_eq_ok.mp hbytes, hsignature⟩
  | cons entry front ih =>
    obtain ⟨bytes, -, h⟩ := bind_eq_ok.mp h
    obtain ⟨_, -, h⟩ := bind_eq_ok.mp h
    rw [List.length_cons, Nat.add_comm front.length, ← Nat.add_assoc]
    exact ih h

/-- The state at a link, before its items. -/
def HostchainState.moved (digest : Digest) (prior : HostchainState) (link : HostchainLink)
    (change : HostchainChange) : HostchainState :=
  { prior with
    seqno := change.chainer.seqno
    host := some change.host
    time := change.chainer.time
    tail := hostchainLinkHash digest link }

/-- What an accepted link has passed. -/
structure LinkPassed (digest : Digest) (scheme : SignatureScheme) (prior : HostchainState)
    (link : HostchainLink) (change : HostchainChange) (expected : UInt64) (s : HostchainState) :
    Prop where
  decoded : link.decodeChange = .ok change
  expected_eq : expected.toNat = prior.seqno.toNat + 1
  seqno : change.chainer.seqno = expected
  place : checkPlace prior change expected = .ok ()
  signed : ∃ front signature bytes, link.signatures = front ++ [signature] ∧
    link.signingBytes front.length = .ok bytes ∧
    verifySignature digest scheme change.signer signature hostchainLinkOuterV1TypeId bytes = .ok ()
  state : s = if expected = 1
    then (change.changes.foldl HostchainState.apply (prior.moved digest link change)).addKey
      change.signer
    else change.changes.foldl HostchainState.apply (prior.moved digest link change)

theorem verifyHostchainLink_eq_ok {link : HostchainLink}
    (h : verifyHostchainLink digest scheme parser prior link = .ok s) :
    ∃ change expected, LinkPassed digest scheme prior link change expected s := by
  obtain ⟨change, hchange, h⟩ := bind_eq_ok.mp h
  obtain ⟨expected, hexpected, h⟩ := bind_eq_ok.mp h
  obtain ⟨hseqno, h⟩ := ite_error_eq_ok.mp h
  obtain ⟨_, hplace, h⟩ := bind_eq_ok.mp h
  obtain ⟨bytes, hbytes, h⟩ := bind_eq_ok.mp h
  obtain ⟨linkHash, hhash, h⟩ := bind_eq_ok.mp h
  obtain ⟨⟨candidate, added⟩, hitems, h⟩ := bind_eq_ok.mp h
  obtain ⟨hcount, h⟩ := ite_error_eq_ok.mp h
  obtain ⟨_, hsignatures, h⟩ := bind_eq_ok.mp h
  cases h
  obtain rfl := itemLoop_eq_ok hitems
  have hencode : encode link.toValue = .ok bytes := mapError_eq_ok.mp (protocol_eq_ok.mp hbytes)
  obtain ⟨-, -, rfl⟩ := (prefixedHash_eq_ok hencode).mp hhash
  refine ⟨change, expected, protocol_eq_ok.mp hchange,
    checkedAddU64_eq_some.mp (okOr_eq_ok.mp hexpected), not_not.mp hseqno, hplace, ?_, rfl⟩
  -- the signatures and the keys are as many, and the signer's key is the last
  rw [not_not, List.length_append, List.length_singleton] at hcount
  obtain ⟨front, signature, hlast⟩ : ∃ front signature, link.signatures = front ++ [signature] := by
    refine (List.eq_nil_or_concat' link.signatures).resolve_left fun hnil => ?_
    rw [hnil] at hcount
    simp at hcount
  have hfront : front.length = added.length := by
    rw [hlast, List.length_append, List.length_singleton] at hcount
    omega
  rw [hlast, List.zip_append hfront] at hsignatures
  obtain ⟨bytes, hsigning, hverified⟩ := signatureLoop_mem hsignatures
  rw [List.length_zip, ← hfront, Nat.min_self, Nat.zero_add] at hsigning
  exact ⟨front, signature, bytes, hlast, hsigning, hverified⟩

/-- The items leave the place of the chain alone. -/
theorem HostchainState.foldl_apply_frame (s : HostchainState) (items : List HostchainChangeItem) :
    (items.foldl apply s).seqno = s.seqno ∧ (items.foldl apply s).host = s.host ∧
      (items.foldl apply s).tail = s.tail := by
  induction items generalizing s with
  | nil => exact ⟨rfl, rfl, rfl⟩
  | cons item items ih =>
    obtain ⟨hseqno, hhost, htail⟩ := ih (s.apply item)
    have happly : (s.apply item).seqno = s.seqno ∧ (s.apply item).host = s.host ∧
        (s.apply item).tail = s.tail := by
      cases item <;> exact ⟨rfl, rfl, rfl⟩
    exact ⟨hseqno.trans happly.1, hhost.trans happly.2.1, htail.trans happly.2.2⟩

/-- The first link founds the host; the others follow the link before. -/
theorem Follows.place (hprior : Follows digest chain prior) {expected : UInt64}
    (hexpected : expected.toNat = prior.seqno.toNat + 1)
    (h : checkPlace prior change expected = .ok ()) :
    (chain = [] ∧ expected = 1 ∧ change.chainer.previous = none ∧ change.host = change.signer) ∨
    (chain ≠ [] ∧ expected ≠ 1 ∧ change.chainer.previous = some prior.tail ∧
      prior.host = some change.host ∧ change.signer ∈ prior.keysOf entityHost ∧
      change.signer ∉ prior.revoked) := by
  have hfirst : expected = 1 ↔ chain = [] := by
    rw [← UInt64.toNat_inj, hexpected, hprior.seqno, ← List.length_eq_zero_iff]
    simp
  rcases ite_eq_ok h with ⟨hone, h⟩ | ⟨hone, h⟩
  · obtain ⟨hprevious, h⟩ := ite_error_eq_ok.mp h
    obtain ⟨hsigner, -⟩ := ite_error_eq_ok.mp h
    exact .inl ⟨hfirst.mp hone, hone, Option.not_isSome_iff_eq_none.mp hprevious,
      not_not.mp hsigner⟩
  · obtain ⟨previous, hprevious, h⟩ := bind_eq_ok.mp h
    obtain ⟨htail, h⟩ := ite_error_eq_ok.mp h
    obtain ⟨hhost, h⟩ := ite_error_eq_ok.mp h
    obtain ⟨hactive, -⟩ := ite_error_eq_ok.mp h
    rw [not_or, not_not] at hactive
    refine .inr ⟨fun hnil => hone (hfirst.mpr hnil), hone, ?_, not_not.mp hhost,
      (List.mem_filter.mp hactive.1).1, hactive.2⟩
    rw [okOr_eq_ok.mp hprevious, not_not.mp htail]

theorem Follows.link (hprior : Follows digest chain prior) {link : HostchainLink}
    {expected : UInt64} (h : LinkPassed digest scheme prior link change expected s) :
    LinkDiscipline digest scheme chain link change := by
  have hkinds := link.decodeChange_kinds h.decoded
  have hseqno : change.chainer.seqno.toNat = chain.length + 1 := by
    rw [h.seqno, h.expected_eq, hprior.seqno]
  rcases hprior.place h.expected_eq h.place with ⟨rfl, -, hprevious, hsigner⟩ |
    ⟨hne, -, hprevious, hhost, hkey, hunrevoked⟩
  · exact {
      decoded := h.decoded
      seqno := hseqno
      previous := hprevious
      host := by simp
      genesis := fun _ => hsigner.symm
      signer_host := hkinds.1
      introduced := fun hne => absurd rfl hne
      unrevoked := by simp
      signed := h.signed }
  · exact {
      decoded := h.decoded
      seqno := hseqno
      previous := by
        obtain ⟨last, hlast⟩ := List.getLast?_isSome.mpr hne |> Option.isSome_iff_exists.mp
        rw [hprevious, hlast, hprior.tail last hlast]
        rfl
      host := fun entry hentry =>
        Option.some.inj ((hprior.host entry hentry).symm.trans hhost)
      genesis := fun hnil => absurd hnil hne
      signer_host := hkinds.1
      introduced := fun _ => hprior.hostKeys _ hkey
      unrevoked := fun entry hentry hitem =>
        hunrevoked (hprior.revoked _ hkinds.1 entry hentry hitem)
      signed := h.signed }

/-- The views of the keys after the items of a link and the founder's key. -/
theorem Follows.step {scheme : SignatureScheme} {chain : LinkedChanges}
    {s : HostchainState} (hprior : Follows digest chain prior) {link : HostchainLink}
    {change : HostchainChange} {expected : UInt64}
    (h : LinkPassed digest scheme prior link change expected s) :
    Follows digest (chain ++ [(link, change)]) s := by
  have hlink := hprior.link h
  have hkinds := link.decodeChange_kinds h.decoded
  obtain ⟨hseqno, hhost, htail⟩ :=
    (prior.moved digest link change).foldl_apply_frame change.changes
  have hitems : itemsOf (chain ++ [(link, change)]) = itemsOf chain ++ change.changes := by
    simp [itemsOf]
  -- the founder's key is a host key, so it is no delegate and no TLS CA
  have hfounder (t : HostchainState) (key : EntityId) (hkey : key.entityType ≠ entityHost) :
      (t.addKey change.signer).isActive key = t.isActive key := by
    rw [HostchainState.isActive_addKey hkey, if_neg]
    rintro rfl
    exact hkey hkinds.1
  have hstate := h.state
  generalize hafter : change.changes.foldl HostchainState.apply (prior.moved digest link change) =
    after at hseqno hhost htail hstate
  have hactive (key : EntityId) (hkey : key.entityType ≠ entityHost) :
      s.isActive key = after.isActive key := by
    rw [hstate]
    split
    · exact hfounder after key hkey
    · rfl
  have hcertificates (id : EntityId) : s.certificatesOf id = after.certificatesOf id := by
    rw [hstate]
    split <;> rfl
  have hcopy : s.seqno = after.seqno ∧ s.host = after.host ∧ s.tail = after.tail := by
    rw [hstate]
    split <;> exact ⟨rfl, rfl, rfl⟩
  refine ⟨?_, ?_, ?_, ?_, ?_, ?_, ?_⟩
  · rw [hcopy.1, hseqno, List.length_append, List.length_singleton]
    exact hlink.seqno
  · intro entry hentry
    rw [hcopy.2.1, hhost]
    rcases List.mem_append.mp hentry with hold | hnew
    · rw [hlink.host entry hold]
      rfl
    · rw [List.mem_singleton.mp hnew]
      rfl
  · intro entry hentry
    rw [List.getLast?_concat, Option.some.injEq] at hentry
    rw [hcopy.2.2, htail, ← hentry]
    rfl
  · intro key hkey
    have hcases : key ∈ after.keysOf entityHost ∨ (chain = [] ∧ key = change.signer) := by
      rw [hstate] at hkey
      split at hkey
      · rename_i hone
        rcases HostchainState.mem_keysOf_addKey.mp hkey with hold | ⟨rfl, -⟩
        · exact .inl hold
        · refine .inr ⟨?_, rfl⟩
          have hlength := hprior.seqno
          have hexpected := h.expected_eq
          rw [hone] at hexpected
          exact List.length_eq_zero_iff.mp (by rw [← hlength]; simpa using hexpected.symm)
      · exact .inl hkey
    rcases hcases with hold | ⟨rfl, rfl⟩
    · rw [← hafter] at hold
      rcases HostchainState.mem_hostKeys_foldl hkinds.2 hold with hprev | hitem
      · exact (hprior.hostKeys key hprev).append _
      · exact .inr ⟨(link, change), by simp, hitem⟩
    · exact .inl ⟨(link, change), rfl, rfl⟩
  · intro key hkind entry hentry hitem
    have hrevoked : key ∈ after.revoked := by
      rw [← hafter]
      refine HostchainState.mem_revoked_foldl hkind ?_
      rcases List.mem_append.mp hentry with hold | hnew
      · exact .inl (hprior.revoked key hkind entry hold hitem)
      · rw [List.mem_singleton.mp hnew] at hitem
        exact .inr hitem
    rw [hstate]
    split
    · exact HostchainState.mem_revoked_addKey.mpr ⟨hrevoked, fun _ => hkinds.1⟩
    · exact hrevoked
  · intro key hkey
    rw [hactive key hkey, ← hafter, HostchainState.isActive_foldl hkey, hitems, lastSuch_append]
    have hold : (prior.moved digest link change).isActive key = prior.isActive key := rfl
    rw [hold, hprior.delegate key hkey]
    cases lastSuch (mentions key) change.changes <;> rfl
  · intro id
    rw [hcertificates id, ← hafter, HostchainState.certificatesOf_foldl, hitems, lastSuch_append]
    have hold : (prior.moved digest link change).certificatesOf id = prior.certificatesOf id := rfl
    rw [hold, hprior.tlsCa id]
    cases lastSuch (decidesTlsCa id) change.changes <;> rfl

/-- The run: each link of an accepted chain has its place after the links before it, and the state
    is the one the chain leads to. -/
theorem verifyHostchain_follows {links : List HostchainLink}
    (h : verifyHostchain digest scheme parser links = .ok s) :
    ∃ chain : LinkedChanges, chain.map Prod.fst = links ∧
      (∀ before link change after, chain = before ++ (link, change) :: after →
        LinkDiscipline digest scheme before link change) ∧
      Follows digest chain s := by
  induction links using List.reverseRecOn generalizing s with
  | nil =>
    cases h
    exact ⟨[], rfl, by simp, follows_start digest⟩
  | append_singleton links link ih =>
    obtain ⟨mid, hmid, hlast⟩ := foldlM_append_eq_ok.mp h
    obtain ⟨_, hlink, hnil⟩ := foldlM_cons_eq_ok.mp hlast
    cases hnil
    obtain ⟨chain, rfl, hdiscipline, hfollows⟩ := ih hmid
    obtain ⟨change, expected, hpassed⟩ := verifyHostchainLink_eq_ok hlink
    refine ⟨chain ++ [(link, change)], by simp, ?_, hfollows.step hpassed⟩
    intro before link' change' after hsplit
    rcases List.eq_nil_or_concat' after with rfl | ⟨front, last, rfl⟩
    · obtain ⟨rfl, hentry⟩ := List.append_inj' hsplit rfl
      cases hentry
      exact hfollows.link hpassed
    · rw [← List.cons_append, ← List.append_assoc] at hsplit
      obtain ⟨hchain, -⟩ := List.append_inj' hsplit rfl
      exact hdiscipline before link' change' front hchain

/-- Hostchain key discipline: the links of an accepted chain are numbered from one, name the link
    before them and one host, and are signed by host keys that an earlier link brought and none
    revoked; a delegate is active exactly when the last item that mentions it adds it, and a TLS CA
    has exactly its last certificate, if no later item revokes it. -/
theorem verifyHostchain_discipline {digest : Digest} {scheme : SignatureScheme}
    {parser : CertificateParser} {links : List HostchainLink} {s : HostchainState}
    (h : verifyHostchain digest scheme parser links = .ok s) :
    ∃ chain : LinkedChanges, chain.map Prod.fst = links ∧
      (∀ before link change after, chain = before ++ (link, change) :: after →
        LinkDiscipline digest scheme before link change) ∧
      (∀ key, key.entityType ≠ entityHost → (key ∈ s.activeKeys key.entityType ↔
        ∃ item, lastSuch (mentions key) (itemsOf chain) = some item ∧ isAddition item)) ∧
      ∀ id, s.tlsCas.filter (·.1 = id) =
        (lastSuch (decidesTlsCa id) (itemsOf chain)).elim [] (certificates id) := by
  obtain ⟨chain, hlinks, hdiscipline, hfollows⟩ := verifyHostchain_follows h
  refine ⟨chain, hlinks, hdiscipline, fun key hkey => ?_, hfollows.tlsCa⟩
  have hactive := hfollows.delegate key hkey
  rw [← decide_eq_true_iff (p := key ∈ s.activeKeys key.entityType)]
  change s.isActive key = true ↔ _
  rw [hactive]
  cases lastSuch (mentions key) (itemsOf chain) <;> simp

end

/-! ## A sample chain

A host founds its chain with a metadata signer and a Merkle signer, hands over to a second host key,
and the second key replaces the Merkle signer. -/

namespace HostchainSample

open LinkSample (digest host key entity signature)

/-- The key of a certificate is its tail. -/
def parser : CertificateParser := fun bytes => some ([], ⟨ed25519Oid, bytes⟩)

def itemValue : HostchainChangeItem → Value
  | .revoke key => .array [.unsigned 1, .variant [0x31] (.binary key.bytes)]
  | .key key => .array [.unsigned 2, .variant [0x32] (.binary key.bytes)]
  | .tlsCa id certificate =>
    .array [.unsigned 3, .variant [0x33] (.array [.binary id.bytes, .binary certificate])]

def changeValue (change : HostchainChange) : Value :=
  .array [.unsigned 1, .variant [0x31] (.array [
    .array [.unsigned change.chainer.seqno,
      change.chainer.previous.elim .null (.binary ·.bytes),
      .array [.unsigned change.chainer.root.epoch, .binary change.chainer.root.hash.bytes],
      .unsigned change.chainer.time],
    .binary change.host.bytes, .binary change.signer.bytes,
    listValue (change.changes.map itemValue)])]

def link (change : HostchainChange) (signatures : Nat) : HostchainLink :=
  ⟨wire (changeValue change), List.replicate signatures signature⟩

def merkleSigner (tag : UInt8) : EntityId := entity entityHostMerkleSigner tag
def metadataSigner (tag : UInt8) : EntityId := entity entityHostMetadataSigner tag
def nextHost : EntityId := entity entityHost 8

def chainer (seqno : UInt64) (previous : Option Hash) : BaseChainer :=
  ⟨seqno, previous, ⟨1, key 0⟩, 0⟩

def genesis : HostchainLink :=
  link ⟨chainer 1 none, host, host, [.key (metadataSigner 1), .key (merkleSigner 1)]⟩ 3

def handOver : HostchainLink :=
  link ⟨chainer 2 (some (hostchainLinkHash digest genesis)), host, host, [.key nextHost]⟩ 2

def replaceSigner : HostchainLink :=
  link ⟨chainer 3 (some (hostchainLinkHash digest handOver)), host, nextHost,
    [.revoke (merkleSigner 1), .key (merkleSigner 2)]⟩ 2

def links : List HostchainLink := [genesis, handOver, replaceSigner]

end HostchainSample

theorem verifyHostchain_discipline_sample : ∃ s,
    verifyHostchain LinkSample.digest Sample.scheme HostchainSample.parser HostchainSample.links =
      .ok s ∧
    s.activeKeys entityHostMerkleSigner = [HostchainSample.merkleSigner 2] ∧
    ∃ chain : LinkedChanges,
      chain.map Prod.fst = HostchainSample.links ∧
      ∀ before link change after, chain = before ++ (link, change) :: after →
        LinkDiscipline LinkSample.digest Sample.scheme before link change := by
  have hrun : ((verifyHostchain LinkSample.digest Sample.scheme HostchainSample.parser
      HostchainSample.links).toOption.any fun s =>
      s.activeKeys entityHostMerkleSigner == [HostchainSample.merkleSigner 2]) = true := by
    decide +kernel
  obtain ⟨s, h, hrun⟩ := exists_of_toOption_any hrun
  obtain ⟨chain, hlinks, hdiscipline, -⟩ := verifyHostchain_discipline h
  exact ⟨s, h, beq_iff_eq.mp hrun, chain, hlinks, hdiscipline⟩

end Foks.Verify
