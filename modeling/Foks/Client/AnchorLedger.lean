/-
  The ledger of anchors over many pages (`foks-client-db`, `repositories/chat.rs`).

  The anchors of a channel that are retained map sequence numbers to identifiers one to one. A page
  is accepted when it agrees with them and with itself, so that the conflicts that its inserts
  ignore are with equal rows; what is retained afterwards are the highest sequence numbers of the
  old anchors and those of the page (`chatAcceptPage_retained`).
-/
import Foks.Client.ChatHistory
import Foks.Lib.Highest

namespace Foks.Client

open Foks.Lib

/-! ## Anchors of one channel -/

/-- Two anchors of one message are equal. -/
def Agree (a b : ChatAnchor) : Prop := a.sequence = b.sequence ∨ a.id = b.id → a = b

theorem Agree.refl (a : ChatAnchor) : Agree a a := fun _ => rfl

instance : Std.Symm Agree where
  symm _ _ h hsame := (h (hsame.imp Eq.symm Eq.symm)).symm

/-- Sequence numbers and identifiers determine each other. -/
def OneToOne (anchors : List ChatAnchor) : Prop :=
  anchors.Pairwise fun a b => a.sequence ≠ b.sequence ∧ a.id ≠ b.id

variable {a b : ChatAnchor}

namespace OneToOne

variable {anchors : List ChatAnchor}

theorem agree (h : OneToOne anchors) (ha : a ∈ anchors) (hb : b ∈ anchors) : Agree a b := by
  refine List.Pairwise.forall_of_forall (R := Agree) (fun a _ => Agree.refl a)
    (h.imp fun hne hsame => ?_) ha hb
  rcases hsame with hsame | hsame
  · exact absurd hsame hne.1
  · exact absurd hsame hne.2

theorem sequences_nodup (h : OneToOne anchors) : (anchors.map (·.sequence.toNat)).Nodup :=
  List.pairwise_map.mpr (h.imp fun hne heq => hne.1 (UInt64.toNat_inj.mp heq))

theorem nodup (h : OneToOne anchors) : anchors.Nodup :=
  h.imp fun hne heq => hne.1 (congrArg _ heq)

end OneToOne

namespace ChatLedger

def retained (ledger : ChatLedger) (scope : ChatScope) : List ChatAnchor :=
  (ledger.filter fun row => row.scope = scope).map (·.anchor)

section

variable {ledger ledger' : ChatLedger} {scope : ChatScope} {observed anchors : List ChatAnchor}

theorem anchorWhere_eq_find? (p : ChatAnchor → Bool) :
    ledger.anchorWhere scope p = (ledger.retained scope).find? p := by
  simp [retained, anchorWhere, List.find?_map, List.find?_filter]

section

variable (hledger : OneToOne (ledger.retained scope))
include hledger

/-- A lookup by a key that finds nothing but `a` finds `a` for each row with the key. -/
theorem eq_of_anchorWhere {p : ChatAnchor → Bool}
    (hkey : ∀ x y, p x = true → p y = true → x.sequence = y.sequence ∨ x.id = y.id)
    {old : ChatAnchor} (hold : old ∈ ledger.retained scope) (hp : p old = true)
    (h : (ledger.anchorWhere scope p).any (· ≠ a) = false) : old = a := by
  rw [anchorWhere_eq_find?] at h
  cases hfound : (ledger.retained scope).find? p with
  | none => exact absurd hp (by simpa using List.find?_eq_none.mp hfound old hold)
  | some x =>
    have hsame : x = old := hledger.agree (List.mem_of_find?_eq_some hfound) hold
      (hkey x old (List.find?_some hfound) hp)
    rw [hfound] at h
    rw [← hsame]
    simpa using h

theorem checkObserved_eq_ok {before : List ChatAnchor}
    (h : ledger.checkObserved scope before a = .ok ()) :
    (∀ old ∈ before, Agree old a) ∧ ∀ old ∈ ledger.retained scope, Agree old a := by
  unfold checkObserved at h
  obtain ⟨hbefore, h⟩ := ite_error_eq_ok.mp h
  obtain ⟨found, hfound, h⟩ := bind_eq_ok.mp h
  obtain ⟨sequence, hsequence, rfl⟩ := map_eq_ok.mp hfound
  obtain ⟨hstored, -⟩ := ite_error_eq_ok.mp h
  rw [ChatInbox.sqliteInteger_eq_ok hsequence] at hstored
  rw [Bool.or_eq_true, not_or, Bool.not_eq_true, Bool.not_eq_true] at hstored
  constructor
  · intro old hold hsame
    by_contra hne
    exact hbefore (List.any_eq_true.mpr ⟨old, hold, by simpa using ⟨hsame, hne⟩⟩)
  · intro old hold hsame
    rcases hsame with hsame | hsame
    · exact eq_of_anchorWhere hledger (fun x y hx hy => .inl (by simp_all)) hold
        (decide_eq_true hsame) hstored.1
    · exact eq_of_anchorWhere hledger (fun x y hx hy => .inr (by simp_all)) hold
        (decide_eq_true hsame) hstored.2

/-- The observations of a page agree with each other and with the anchors that are retained. -/
theorem checkAllObserved_agree {before : List ChatAnchor} (hbefore : before.Pairwise Agree)
    (h : ledger.checkAllObserved scope before observed = .ok ()) :
    (before ++ observed).Pairwise Agree ∧
      ∀ a ∈ observed, ∀ old ∈ ledger.retained scope, Agree old a := by
  induction observed generalizing before with
  | nil => exact ⟨by rwa [List.append_nil], fun a ha => (List.not_mem_nil ha).elim⟩
  | cons a observed ih =>
    obtain ⟨_, hfirst, hrest⟩ := bind_eq_ok.mp h
    obtain ⟨hnew, hold⟩ := checkObserved_eq_ok hledger hfirst
    have hlonger : (before ++ [a]).Pairwise Agree :=
      List.pairwise_append.mpr ⟨hbefore, List.pairwise_singleton _ _, by simpa using hnew⟩
    obtain ⟨hpairs, hothers⟩ := ih hlonger hrest
    exact ⟨by simpa using hpairs, List.forall_mem_cons.mpr ⟨hold, hothers⟩⟩

end

/-! ## The inserts -/

theorem insertAnchor_eq_ok (h : insertAnchor scope observed ledger a = .ok ledger') : a ∈ observed ∧
      ((ledger' = ledger ∧
          ∃ old ∈ ledger.retained scope, old.sequence = a.sequence ∨ old.id = a.id) ∨
        ledger'.retained scope = ledger.retained scope ++ [a] ∧
          ∀ old ∈ ledger.retained scope, old.sequence ≠ a.sequence ∧ old.id ≠ a.id) := by
  unfold insertAnchor at h
  obtain ⟨hchecked, h⟩ := ite_error_eq_ok.mp h
  obtain ⟨_, -, h⟩ := bind_eq_ok.mp h
  obtain ⟨-, h⟩ := ite_error_eq_ok.mp h
  refine ⟨List.mem_of_find?_eq_some (not_not.mp hchecked), ?_⟩
  rcases ite_eq_ok h with ⟨hstored, h⟩ | ⟨hnew, h⟩
  · obtain rfl := Except.ok.inj h
    left
    simpa [retained, and_assoc] using hstored
  · obtain rfl := Except.ok.inj h
    right
    refine ⟨by simp [retained], ?_⟩
    rw [retained, List.forall_mem_map]
    simpa using hnew

/-- Every conflict that an insert ignores is with an equal row. -/
theorem insertAnchors_eq_ok (hledger : OneToOne (ledger.retained scope))
    (hobserved : ∀ a ∈ observed, ∀ b ∈ observed, Agree a b)
    (hstored : ∀ a ∈ observed, ∀ old ∈ ledger.retained scope, Agree old a)
    (h : anchors.foldlM (insertAnchor scope observed) ledger = .ok ledger') :
    OneToOne (ledger'.retained scope) ∧ anchors ⊆ observed ∧
      ∀ a, a ∈ ledger'.retained scope ↔ a ∈ ledger.retained scope ∨ a ∈ anchors := by
  induction anchors generalizing ledger with
  | nil =>
    obtain rfl := Except.ok.inj h
    exact ⟨hledger, List.nil_subset _, fun a => by simp⟩
  | cons first anchors ih =>
    obtain ⟨mid, hfirst, hrest⟩ := foldlM_cons_eq_ok.mp h
    obtain ⟨hmem, ⟨rfl, old, hold, hsame⟩ | ⟨hadded, hfresh⟩⟩ := insertAnchor_eq_ok hfirst
    · obtain ⟨hone, hsubset, hthere⟩ := ih hledger hstored hrest
      refine ⟨hone, List.cons_subset.mpr ⟨hmem, hsubset⟩, fun a => ?_⟩
      rw [hthere, List.mem_cons]
      have hfirst : first ∈ mid.retained scope := hstored first hmem old hold hsame ▸ hold
      exact ⟨fun h => h.imp_right .inr, fun h => by
        rcases h with h | rfl | h
        · exact .inl h
        · exact .inl hfirst
        · exact .inr h⟩
    · have hmid : OneToOne (mid.retained scope) := by
        rw [hadded]
        exact List.pairwise_append.mpr
          ⟨hledger, List.pairwise_singleton _ _, by simpa using hfresh⟩
      obtain ⟨hone, hsubset, hthere⟩ := ih hmid (fun a ha old hold => by
        rw [hadded, List.mem_append, List.mem_singleton] at hold
        rcases hold with hold | rfl
        · exact hstored a ha old hold
        · exact hobserved old hmem a ha) hrest
      refine ⟨hone, List.cons_subset.mpr ⟨hmem, hsubset⟩, fun a => ?_⟩
      rw [hthere, hadded, List.mem_append, List.mem_singleton, List.mem_cons, or_assoc]

/-! ## Pruning -/

theorem retained_prune {cutoff : UInt64} (h : ledger.cutoff scope = some cutoff) :
    (ledger.prune scope).retained scope =
      (ledger.retained scope).filter fun a => cutoff ≤ a.sequence := by
  rw [prune, h, retained, retained, List.filter_filter, List.filter_map, List.filter_filter]
  refine congrArg _ (List.filter_congr fun row _ => ?_)
  by_cases hscope : row.scope = scope <;> simp [hscope, ← UInt64.not_lt]

theorem cutoff_toNat (ledger : ChatLedger) (scope : ChatScope) :
    (ledger.cutoff scope).map UInt64.toNat = (((ledger.retained scope).map
      (·.sequence.toNat)).insertionSort (· ≥ ·))[chatRetainedAnchors - 1]? := by
  have hsorted := List.map_insertionSort (r := fun a b : UInt64 => b ≤ a) (s := (· ≥ ·))
    UInt64.toNat ((ledger.retained scope).map (·.sequence)) fun a _ b _ => UInt64.le_iff_toNat_le
  rw [List.map_map] at hsorted
  rw [cutoff, ← List.getElem?_map, ← Function.comp_def UInt64.toNat, ← hsorted, retained,
    List.map_map]
  rfl

section

variable (hledger : OneToOne (ledger.retained scope))
include hledger

/-- An anchor stays when few anchors are above it. -/
theorem mem_retained_prune :
    a ∈ (ledger.prune scope).retained scope ↔ a ∈ ledger.retained scope ∧
      (ledger.retained scope).countP (a.sequence < ·.sequence) < chatRetainedAnchors := by
  have hcutoff := cutoff_toNat ledger scope
  cases hfound : ledger.cutoff scope with
  | none =>
    have hshort := hcutoff.symm
    rw [hfound, Option.map_none, List.getElem?_eq_none_iff, List.length_insertionSort,
      List.length_map] at hshort
    have hle := (ledger.retained scope).countP_le_length (p := (a.sequence < ·.sequence))
    rw [prune, hfound, iff_self_and]
    intro _
    unfold chatRetainedAnchors at *
    omega
  | some cutoff =>
    rw [retained_prune hfound, List.mem_filter, decide_eq_true_eq]
    refine and_congr_right fun ha => ?_
    rw [hfound, Option.map_some] at hcutoff
    have hcount := countP_above_le_iff hledger.sequences_nodup hcutoff.symm
      (List.mem_map_of_mem ha)
    have habove : (fun x => decide (a.sequence.toNat < x)) ∘ (·.sequence.toNat) =
        fun x : ChatAnchor => decide (a.sequence < x.sequence) := by
      funext x
      exact decide_eq_decide.mpr UInt64.lt_iff_toNat_lt.symm
    rw [List.countP_map, habove] at hcount
    rw [UInt64.le_iff_toNat_le, ← hcount]
    unfold chatRetainedAnchors
    omega

theorem oneToOne_prune :
    OneToOne ((ledger.prune scope).retained scope) := by
  cases hfound : ledger.cutoff scope with
  | none => rwa [ChatLedger.prune, hfound]
  | some cutoff =>
    rw [retained_prune hfound]
    exact List.Pairwise.filter _ hledger

theorem length_retained_prune :
    ((ledger.prune scope).retained scope).length ≤ chatRetainedAnchors := by
  have hpruned := oneToOne_prune hledger
  rw [← List.length_map (·.sequence.toNat)]
  refine length_le_of_countP_above hpruned.sequences_nodup (List.forall_mem_map.mpr fun a ha => ?_)
  have hsubset : (ledger.prune scope).retained scope ⊆ ledger.retained scope :=
    fun b hb => ((mem_retained_prune hledger).mp hb).1
  rw [List.countP_map]
  exact lt_of_le_of_lt ((hpruned.nodup.subperm hsubset).countP_le _)
    ((mem_retained_prune hledger).mp ha).2

end

/-! ## A page -/

/-- What an accepted page does to the anchors of its channel. -/
structure PageAccepted (before after observed anchors : List ChatAnchor) : Prop where
  agrees : ∀ a ∈ observed, ∀ old ∈ before, Agree old a
  anchored : anchors ⊆ observed
  oneToOne : OneToOne after
  highest : ∀ a, a ∈ after ↔ a ∈ before.toFinset ∪ anchors.toFinset ∧
    {b ∈ before.toFinset ∪ anchors.toFinset | a.sequence < b.sequence}.card < chatRetainedAnchors
  few : after.length ≤ chatRetainedAnchors

theorem chatAcceptPage_retained (hledger : OneToOne (ledger.retained scope))
    (h : ledger.chatAcceptPage scope observed anchors = .ok ledger') :
    PageAccepted (ledger.retained scope) (ledger'.retained scope) observed anchors := by
  obtain ⟨_, hchecked, h⟩ := bind_eq_ok.mp h
  obtain ⟨mid, hinserted, h⟩ := bind_eq_ok.mp h
  obtain rfl := Except.ok.inj h
  obtain ⟨hpairs, hstored⟩ := checkAllObserved_agree hledger .nil hchecked
  have hobserved : ∀ a ∈ observed, ∀ b ∈ observed, Agree a b :=
    fun a ha b hb => List.Pairwise.forall_of_forall (fun a _ => Agree.refl a) hpairs ha hb
  obtain ⟨hone, hsubset, hthere⟩ := insertAnchors_eq_ok hledger hobserved hstored hinserted
  have hunion : (mid.retained scope).toFinset =
      (ledger.retained scope).toFinset ∪ anchors.toFinset := by
    ext a
    simp [hthere]
  refine ⟨hstored, hsubset, oneToOne_prune hone, fun a => ?_, length_retained_prune hone⟩
  have hcard : {b ∈ (mid.retained scope).toFinset | a.sequence < b.sequence}.card =
      (mid.retained scope).countP (a.sequence < ·.sequence) := by
    rw [List.countP_eq_length_filter, ← List.toFinset_card_of_nodup (hone.nodup.filter _),
      List.toFinset_filter]
    simp
  rw [mem_retained_prune hone, ← hunion, List.mem_toFinset, hcard]

end

/-! ## Many pages -/

/-- The arguments of a call: everything that was observed, and what becomes an anchor. -/
structure AnchorPage where
  observed : List ChatAnchor
  anchors : List ChatAnchor

/-- The table after a call; one that fails is rolled back. -/
def afterPage (scope : ChatScope) (ledger : ChatLedger) (page : AnchorPage) : ChatLedger :=
  match ledger.chatAcceptPage scope page.observed page.anchors with
  | .ok ledger' => ledger'
  | .error _ => ledger

def afterPages (scope : ChatScope) (ledger : ChatLedger) (pages : List AnchorPage) : ChatLedger :=
  pages.foldl (afterPage scope) ledger

/-- The channel has an anchor with a sequence number before and after each of the calls. -/
def KeptThrough (scope : ChatScope) (sequence : UInt64) : ChatLedger → List AnchorPage → Prop
  | ledger, [] => ∃ a ∈ ledger.retained scope, a.sequence = sequence
  | ledger, page :: pages => (∃ a ∈ ledger.retained scope, a.sequence = sequence) ∧
      KeptThrough scope sequence (ledger.afterPage scope page) pages

section

variable {ledger : ChatLedger} {scope : ChatScope}

section

variable (hledger : OneToOne (ledger.retained scope))
include hledger

theorem afterPage_cases (page : AnchorPage) :
    ledger.afterPage scope page = ledger ∨
      PageAccepted (ledger.retained scope) ((ledger.afterPage scope page).retained scope)
        page.observed page.anchors := by
  unfold afterPage
  cases haccept : ledger.chatAcceptPage scope page.observed page.anchors with
  | ok ledger' => exact .inr (chatAcceptPage_retained hledger haccept)
  | error e => exact .inl rfl

theorem oneToOne_afterPage (page : AnchorPage) :
    OneToOne ((ledger.afterPage scope page).retained scope) := by
  rcases afterPage_cases hledger page with hsame | haccepted
  · rwa [hsame]
  · exact haccepted.oneToOne

theorem oneToOne_afterPages (pages : List AnchorPage) :
    OneToOne ((ledger.afterPages scope pages).retained scope) := by
  induction pages generalizing ledger with
  | nil => exact hledger
  | cons page pages ih => exact ih (oneToOne_afterPage hledger page)

/-- An anchor is not replaced by another one with its sequence number. -/
theorem afterPage_unchanged {page : AnchorPage} (ha : a ∈ ledger.retained scope)
    (hb : b ∈ (ledger.afterPage scope page).retained scope) (hsequence : b.sequence = a.sequence) :
    b = a := by
  rcases afterPage_cases hledger page with hsame | haccepted
  · rw [hsame] at hb
    exact hledger.agree hb ha (.inl hsequence)
  · have hfrom := ((haccepted.highest b).mp hb).1
    rw [Finset.mem_union, List.mem_toFinset, List.mem_toFinset] at hfrom
    rcases hfrom with hold | hnew
    · exact hledger.agree hold ha (.inl hsequence)
    · exact (haccepted.agrees b (haccepted.anchored hnew) a ha (.inl hsequence.symm)).symm

theorem KeptThrough.unchanged {pages : List AnchorPage} (ha : a ∈ ledger.retained scope)
    (hkept : KeptThrough scope a.sequence ledger pages)
    (hb : b ∈ (ledger.afterPages scope pages).retained scope)
    (hsequence : b.sequence = a.sequence) : b = a := by
  induction pages generalizing ledger with
  | nil => exact hledger.agree hb ha (.inl hsequence)
  | cons page pages ih =>
    obtain ⟨-, hkept⟩ := hkept
    have hnext : ∃ c ∈ (ledger.afterPage scope page).retained scope, c.sequence = a.sequence := by
      cases pages with
      | nil => exact hkept
      | cons _ _ => exact hkept.1
    obtain ⟨c, hc, hsame⟩ := hnext
    obtain rfl := afterPage_unchanged hledger ha hc hsame
    exact ih (oneToOne_afterPage hledger page) hc hkept hb

/-- From a table that keeps to its keys, after any calls for a channel: the anchors of the channel
    map sequence numbers to identifiers one to one; a call that fails changes nothing; a page that
    is accepted agrees with them, and leaves the highest of them and its own; and an anchor does not
    change while it is retained. -/
theorem anchor_ledger_integrity
    (pages : List AnchorPage) (page : AnchorPage) (more : List AnchorPage) :
    let now := ledger.afterPages scope pages
    OneToOne (now.retained scope) ∧
    (∀ error, now.chatAcceptPage scope page.observed page.anchors = .error error →
      now.afterPage scope page = now) ∧
    (∀ next, now.chatAcceptPage scope page.observed page.anchors = .ok next →
      now.afterPage scope page = next ∧
      PageAccepted (now.retained scope) (next.retained scope) page.observed page.anchors) ∧
    ∀ a ∈ now.retained scope, KeptThrough scope a.sequence now more →
      ∀ b ∈ (now.afterPages scope more).retained scope, b.sequence = a.sequence → b = a := by
  intro now
  have hnow : OneToOne (now.retained scope) := oneToOne_afterPages hledger pages
  refine ⟨hnow, fun error herror => ?_, fun next hnext => ⟨?_, ?_⟩, fun a ha hkept b hb hsame => ?_⟩
  · rw [afterPage, herror]
  · rw [afterPage, hnext]
  · exact chatAcceptPage_retained hnow hnext
  · exact KeptThrough.unchanged hnow ha hkept hb hsame

end

end

namespace AnchorSample

def channel : ChatScope := ⟨[], [], [], .replicate 16 0⟩

/-- The anchor of the message `name` at a place of the channel. -/
def anchorAt (sequence : UInt64) (name : UInt8) : ChatAnchor :=
  ⟨sequence, .replicate 16 name, .replicate 32 name⟩

/-- Two messages, then a page that maps the second place to another message. -/
def pages : List AnchorPage :=
  [⟨[anchorAt 2 7, anchorAt 1 6], [anchorAt 2 7, anchorAt 1 6]⟩,
    ⟨[anchorAt 3 8, anchorAt 2 9], [anchorAt 3 8]⟩]

/-- A page with a new message, and one that was seen. -/
def page : AnchorPage := ⟨[anchorAt 4 10, anchorAt 2 7], [anchorAt 4 10, anchorAt 2 7]⟩

/-- The page that contradicts the table is refused; the next one is accepted and agrees with the
    two anchors, and the first of them is still there after all pages again. -/
theorem anchors_kept :
    afterPages channel [] pages = [⟨channel, anchorAt 2 7⟩, ⟨channel, anchorAt 1 6⟩] ∧
    PageAccepted [anchorAt 2 7, anchorAt 1 6] [anchorAt 2 7, anchorAt 1 6, anchorAt 4 10]
      page.observed page.anchors ∧
    anchorAt 1 6 ∈
      (afterPages channel (afterPages channel [] pages) (page :: pages)).retained channel := by
  have hnow : afterPages channel [] pages = [⟨channel, anchorAt 2 7⟩, ⟨channel, anchorAt 1 6⟩] := by
    decide +kernel
  obtain ⟨-, -, haccepted, -⟩ := @anchor_ledger_integrity [] channel
    List.Pairwise.nil pages page (page :: pages)
  rw [hnow] at haccepted ⊢
  have hnext := (haccepted
    [⟨channel, anchorAt 2 7⟩, ⟨channel, anchorAt 1 6⟩, ⟨channel, anchorAt 4 10⟩]
    (by decide +kernel)).2
  refine ⟨rfl, hnext, ?_⟩
  decide +kernel

end AnchorSample

end ChatLedger

end Foks.Client
