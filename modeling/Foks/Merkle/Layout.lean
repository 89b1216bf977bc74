/-
  The tree behind a build.

  `layout` is the recursion of `build` without the hashing: it lays sorted entries out as a
  path-compressed trie. It succeeds on every sorted set of distinct keys and the trie is well
  formed (`layout_spec`); `build` returns the root hash of that trie and the map of its nodes
  (`build_eq`).
-/
import Foks.Lib.SortedMap
import Foks.Merkle.Tree

namespace Foks.MerkleStore

open Foks.Lib Foks.Snowpack Foks.Crypto

/-- A tree of the store: keys and values are 32 bytes. -/
abbrev Tree := Trie Hash Hash

/-- Keys of 256 bits, from bit `start` on. -/
abbrev TreeWF (start : Nat) (t : Tree) : Prop := t.WF bitAt 256 start

def layout : Nat → List (Hash × Hash) → Nat → Except Error Tree
  | 0, _, _ => .error .duplicateKey
  | bound + 1, entries, start =>
    match entries with
    | [(key, value)] => .ok (.leaf key value)
    | [] => .error .duplicateKey
    | first :: _ => do
      let prefixCount ← commonPrefix entries start
      let branch ← okOr .depth (checkedAdd start prefixCount)
      if 256 ≤ branch then .error .duplicateKey
      else
        let split := (entries.takeWhile fun e => !bitAt e.1 branch).length
        if split = 0 ∨ split = entries.length then .error .duplicateKey
        else do
          let left ← layout bound (entries.take split) (branch + 1)
          let right ← layout bound (entries.drop split) (branch + 1)
          .ok (.fork start prefixCount first.1 left right)

/-! ## Hashes and nodes of a tree -/

section

variable (digest : Digest)

def rootHash : Tree → Hash
  | .leaf key value => nodeHash digest (.leaf key value)
  | .fork start count sample left right =>
    nodeHash digest (.interior (UInt64.ofNat start) (UInt64.ofNat count)
      (clamp sample start count) (rootHash left) (rootHash right))

/-- The node at the root of a tree. -/
def rootNode : Tree → Node
  | .leaf key value => .leaf key value
  | .fork start count sample left right =>
    .interior (UInt64.ofNat start) (UInt64.ofNat count) (clamp sample start count)
      (rootHash digest left) (rootHash digest right)

/-- All nodes, children before their parents. -/
def treeNodes : Tree → List Node
  | .leaf key value => [.leaf key value]
  | .fork start count sample left right =>
    treeNodes left ++ treeNodes right ++ [rootNode digest (.fork start count sample left right)]

/-- The nodes as they are stored. -/
def storedNodes (t : Tree) : List (Hash × List UInt8) :=
  (treeNodes digest t).map fun node => (nodeHash digest node, node.bytes)

theorem rootHash_eq (t : Tree) : rootHash digest t = nodeHash digest (rootNode digest t) := by
  cases t <;> rfl

theorem rootNode_mem (t : Tree) : rootNode digest t ∈ treeNodes digest t := by
  cases t with
  | leaf key value => simp [rootNode, treeNodes]
  | fork start count sample left right => simp [treeNodes]

theorem rootNode_ok {start : Nat} {t : Tree} (h : TreeWF start t) :
    (rootNode digest t).Encodable ∧ (rootNode digest t).Valid := by
  cases t with
  | leaf key value => exact ⟨trivial, trivial⟩
  | fork s count sample left right =>
    obtain ⟨⟨rfl, hlt, -, -, -⟩, -, -⟩ := h
    refine ⟨?_, validPrefix_clamp sample hlt⟩
    have hlen := @clamp_length_le sample s count (by omega)
    have hmax : 32 ≤ u32Max := by decide
    exact hlen.trans hmax

/-- No two different encodings among the nodes have the same hash. -/
def NoCollision (nodes : List Node) : Prop :=
  ∀ a ∈ nodes, ∀ b ∈ nodes, nodeHash digest a = nodeHash digest b → a.bytes = b.bytes

instance (nodes : List Node) : Decidable (NoCollision digest nodes) :=
  inferInstanceAs (Decidable (∀ a ∈ nodes, ∀ b ∈ nodes,
    nodeHash digest a = nodeHash digest b → a.bytes = b.bytes))

variable {digest}

theorem NoCollision.mono {nodes nodes' : List Node} (h : NoCollision digest nodes)
    (hsub : nodes' ⊆ nodes) : NoCollision digest nodes' :=
  fun a ha b hb => h a (hsub ha) b (hsub hb)

theorem NoCollision.eq {nodes : List Node} (h : NoCollision digest nodes) {a b : Node}
    (ha : a ∈ nodes) (hb : b ∈ nodes) (hea : a.Encodable) (heb : b.Encodable)
    (hh : nodeHash digest a = nodeHash digest b) : a = b :=
  Node.bytes_inj hea heb (h a ha b hb hh)

end

/-! ## The layout of sorted entries -/

/-- Entries in strictly increasing key order, as a `BTreeMap` lists them. -/
def SortedEntries (entries : List (Hash × Hash)) : Prop :=
  entries.Pairwise fun a b => compare a.1 b.1 = .lt

/-- All keys agree before bit `n`. -/
def ShareBits (n : Nat) (entries : List (Hash × Hash)) : Prop :=
  ∀ a ∈ entries, ∀ b ∈ entries, AgreeOn bitAt 0 n a.1 b.1

theorem ShareBits.mono {n : Nat} {es fs : List (Hash × Hash)} (h : ShareBits n es)
    (hsub : fs ⊆ es) :
    ShareBits n fs := fun a ha b hb => h a (hsub ha) b (hsub hb)

/-- What `common_prefix` finds: the first bit on which some entry differs from the first. -/
structure Splits (first : Hash × Hash) (others : List (Hash × Hash)) (start count : Nat) :
    Prop where
  branch_lt : start + count < 256
  agree : ∀ e ∈ others, AgreeOn bitAt start (start + count) first.1 e.1
  differs : ∃ e ∈ others, bitAt e.1 (start + count) ≠ bitAt first.1 (start + count)

variable {first : Hash × Hash} {others : List (Hash × Hash)}

theorem commonPrefixFrom_spec {start left bit : Nat} (hleft : bit + left = 256) (hbit : start ≤ bit)
    (hagree : ∀ e ∈ others, AgreeOn bitAt start bit first.1 e.1)
    (hne : ∃ e ∈ others, ¬ AgreeOn bitAt start 256 first.1 e.1) :
    ∃ count, commonPrefixFrom (first :: others) start left bit = .ok count ∧
      Splits first others start count := by
  induction left generalizing bit with
  | zero =>
    obtain ⟨e, he, hd⟩ := hne
    obtain rfl : bit = 256 := by omega
    exact absurd (hagree e he) hd
  | succ left ih =>
    unfold commonPrefixFrom
    simp only
    by_cases hany : others.any (fun e => bitAt e.1 bit != bitAt first.1 bit) = true
    · rw [if_pos hany]
      have hcount : start + (bit - start) = bit := by omega
      obtain ⟨e, he, hd⟩ := List.any_eq_true.mp hany
      refine ⟨bit - start, rfl, ⟨by omega, ?_, e, he, ?_⟩⟩
      · rwa [hcount]
      · rw [hcount]
        simpa using hd
    · rw [if_neg hany]
      refine ih (by omega) (by omega) fun e he => (hagree e he).snoc ?_
      by_contra hd
      exact hany (List.any_eq_true.mpr ⟨e, he, by simpa using fun h => hd h.symm⟩)

theorem commonPrefix_spec {second : Hash × Hash} {start : Nat} (hstart : start ≤ 256)
    (hsorted : SortedEntries (first :: second :: others))
    (hshare : ShareBits start (first :: second :: others)) :
    ∃ count, commonPrefix (first :: second :: others) start = .ok count ∧
      Splits first (second :: others) start count := by
  refine commonPrefixFrom_spec (by omega) (Nat.le_refl _) (fun e _ i hlo hhi => by omega)
    ⟨second, by simp, fun hagree => ?_⟩
  -- keys that agreed on all 256 bits would be equal, and the list is strictly sorted
  have hall := (hshare first (by simp) second (by simp)).append hagree
  have hlt := (List.pairwise_cons.mp hsorted).1 second (by simp)
  rw [hash_ext hall] at hlt
  simp at hlt

/-- Sorted entries split at the branch bit into two non-empty halves. -/
theorem split_spec {branch : Nat} (hsorted : SortedEntries (first :: others))
    (hshare : ShareBits branch (first :: others))
    (hdiff : ∃ e ∈ others, bitAt e.1 branch ≠ bitAt first.1 branch) :
    let p : Hash × Hash → Bool := fun e => !bitAt e.1 branch
    (first :: others).takeWhile p ≠ [] ∧ (first :: others).dropWhile p ≠ [] ∧
      (∀ e ∈ (first :: others).takeWhile p, bitAt e.1 branch = false) ∧
      ∀ e ∈ (first :: others).dropWhile p, bitAt e.1 branch = true := by
  intro p
  have hmono : (first :: others).Pairwise fun a b => p b = true → p a = true := by
    refine hsorted.imp_of_mem fun ha hb hlt hpb => ?_
    by_contra hpa
    have := bitAt_mono hlt (hshare _ ha _ hb) (by simpa [p] using hpa)
    simp [p, this] at hpb
  have htake (e : Hash × Hash) (he : e ∈ (first :: others).takeWhile p) :
      bitAt e.1 branch = false := by simpa [p] using List.mem_takeWhile_imp he
  have hdrop (e : Hash × Hash) (he : e ∈ (first :: others).dropWhile p) :
      bitAt e.1 branch = true := by simpa [p] using sorted_split hmono e he
  obtain ⟨e, he, hd⟩ := hdiff
  -- the first entry has the zero: otherwise no later one could differ from it
  have hfirst : bitAt first.1 branch = false := by
    by_contra hone
    have hone : bitAt first.1 branch = true := by simpa using hone
    have hlt := (List.pairwise_cons.mp hsorted).1 e he
    have := bitAt_mono hlt (hshare first (by simp) e (by simp [he])) hone
    exact hd (this.trans hone.symm)
  refine ⟨?_, ?_, htake, hdrop⟩
  · rw [List.takeWhile_cons_of_pos (by simp [p, hfirst])]
    simp
  · intro hnil
    have hmem : e ∈ (first :: others).takeWhile p := by
      have := List.takeWhile_append_dropWhile (p := p) (l := first :: others)
      rw [hnil, List.append_nil] at this
      rw [this]
      simp [he]
    exact hd ((htake e hmem).trans hfirst.symm)

/-- Distinct sorted keys that agree before `start` have a well-formed tree with these entries. -/
theorem layout_spec (bound : Nat) (entries : List (Hash × Hash)) (start : Nat)
    (hbound : entries.length ≤ bound) (hne : entries ≠ []) (hstart : start ≤ 256)
    (hsorted : SortedEntries entries) (hshare : ShareBits start entries) :
    ∃ t, layout bound entries start = .ok t ∧ TreeWF start t ∧ t.entries = entries := by
  induction bound generalizing entries start with
  | zero => exact absurd (List.length_eq_zero_iff.mp (by omega)) hne
  | succ bound ih =>
    match entries, hbound, hne, hsorted, hshare with
    | [(key, value)], _, _, _, _ => exact ⟨.leaf key value, rfl, trivial, rfl⟩
    | first :: second :: others, hbound, _, hsorted, hshare =>
      obtain ⟨count, hcount, hsplits⟩ := commonPrefix_spec hstart hsorted hshare
      have hbranch := hsplits.branch_lt
      have hagree : ∀ e ∈ first :: second :: others,
          AgreeOn bitAt start (start + count) first.1 e.1 := by
        intro e he
        rcases List.mem_cons.mp he with rfl | he
        · exact AgreeOn.refl _
        · exact hsplits.agree e he
      have hshare' : ShareBits (start + count) (first :: second :: others) := fun a ha b hb =>
        (hshare a ha b hb).append ((hagree a ha).symm.trans (hagree b hb))
      obtain ⟨hl, hr, hlbit, hrbit⟩ := split_spec hsorted hshare' hsplits.differs
      have happ := (first :: second :: others).takeWhile_append_dropWhile
        (p := fun e => !bitAt e.1 (start + count))
      have htake := take_length_takeWhile (fun e : Hash × Hash => !bitAt e.1 (start + count))
        (first :: second :: others)
      have hdrop := drop_length_takeWhile (fun e : Hash × Hash => !bitAt e.1 (start + count))
        (first :: second :: others)
      have hlens := congrArg List.length happ
      rw [List.length_append] at hlens
      have hlpos := List.length_pos_iff.mpr hl
      have hrpos := List.length_pos_iff.mpr hr
      have hlsub := List.takeWhile_sublist (fun e : Hash × Hash => !bitAt e.1 (start + count))
        (l := first :: second :: others)
      have hrsub := List.dropWhile_sublist (fun e : Hash × Hash => !bitAt e.1 (start + count))
        (l := first :: second :: others)
      generalize hls : (first :: second :: others).takeWhile
        (fun e => !bitAt e.1 (start + count)) = ls at *
      generalize hrs : (first :: second :: others).dropWhile
        (fun e => !bitAt e.1 (start + count)) = rs at *
      -- on either side the branch bit is shared too
      have hshl : ShareBits (start + count + 1) ls := fun a ha b hb =>
        (hshare'.mono hlsub.subset a ha b hb).snoc ((hlbit a ha).trans (hlbit b hb).symm)
      have hshr : ShareBits (start + count + 1) rs := fun a ha b hb =>
        (hshare'.mono hrsub.subset a ha b hb).snoc ((hrbit a ha).trans (hrbit b hb).symm)
      obtain ⟨left, hleft, hlwf, hlent⟩ := ih ls (start + count + 1) (by omega) hl (by omega)
        (hsorted.sublist hlsub) hshl
      obtain ⟨right, hright, hrwf, hrent⟩ := ih rs (start + count + 1) (by omega) hr (by omega)
        (hsorted.sublist hrsub) hshr
      refine ⟨.fork start count first.1 left right, ?_, ⟨⟨rfl, hbranch, ?_, ?_, ?_⟩, hlwf, hrwf⟩,
        ?_⟩
      · rw [layout, hcount, ok_bind, checkedAdd_eq_some (by omega)]
        · simp only [okOr, ok_bind]
          rw [if_neg (by omega), hls, if_neg (by omega), htake, hdrop, hleft, hright]
          rfl
        · simp
      · rw [hlent, hrent, happ]
        exact hagree
      · rwa [hlent]
      · rwa [hrent]
      · rw [Trie.entries, hlent, hrent, happ]

/-! ## `build` hashes the layout -/

theorem insertNode_eq (digest : Digest) {node : Node} (h : node.Encodable) (nodes : NodeMap) :
    insertNode digest node nodes =
      .ok (nodeHash digest node, nodes.insert (nodeHash digest node) node.bytes) := by
  rw [insertNode, hashNode_eq digest h, ok_bind, Node.encoded_eq h]
  rfl

/-- One unfolding of a successful `layout` of at least two entries. -/
theorem layout_fork {bound start : Nat} {second : Hash × Hash} {t : Tree}
    (h : layout (bound + 1) (first :: second :: others) start = .ok t) :
    ∃ count split left right, commonPrefix (first :: second :: others) start = .ok count ∧
      start + count < 256 ∧
      ((first :: second :: others).takeWhile fun e => !bitAt e.1 (start + count)).length = split ∧
      ¬ (split = 0 ∨ split = (first :: second :: others).length) ∧
      layout bound ((first :: second :: others).take split) (start + count + 1) = .ok left ∧
      layout bound ((first :: second :: others).drop split) (start + count + 1) = .ok right ∧
      t = .fork start count first.1 left right := by
  rw [layout] at h
  · obtain ⟨count, hcount, h⟩ := bind_eq_ok.mp h
    obtain ⟨branch, hbranch, h⟩ := bind_eq_ok.mp h
    obtain ⟨-, rfl⟩ := checkedAdd_eq_some_iff.mp (okOr_eq_ok.mp hbranch)
    obtain ⟨hlt, h⟩ := ite_error_eq_ok.mp h
    obtain ⟨hsplit, h⟩ := ite_error_eq_ok.mp h
    obtain ⟨left, hleft, h⟩ := bind_eq_ok.mp h
    obtain ⟨right, hright, h⟩ := bind_eq_ok.mp h
    cases h
    exact ⟨count, _, left, right, hcount, by omega, rfl, hsplit, hleft, hright, rfl⟩
  · simp

/-- The hashes and the node map of `build` are those of the layout. -/
theorem build_eq (digest : Digest) (bound : Nat) (entries : List (Hash × Hash)) (start : Nat)
    (nodes : NodeMap) (t : Tree) (h : layout bound entries start = .ok t) :
    build digest bound entries start nodes =
      .ok (rootHash digest t, insertEach nodes (storedNodes digest t)) := by
  induction bound generalizing entries start nodes t with
  | zero => cases h
  | succ bound ih =>
    match entries, h with
    | [(key, value)], h =>
      cases h
      exact @insertNode_eq digest (.leaf key value) trivial nodes
    | first :: second :: others, h =>
      obtain ⟨count, split, left, right, hcount, hlt, hlen, hsplit, hleft, hright, rfl⟩ :=
        layout_fork h
      have henc : (rootNode digest (.fork start count first.1 left right)).Encodable :=
        (clamp_length_le (by omega)).trans (by decide)
      rw [build, hcount, ok_bind, checkedAdd_eq_some (by omega)]
      · simp only [okOr, ok_bind]
        rw [if_neg (by omega), hlen, if_neg hsplit, ih _ _ _ _ hleft, ok_bind]
        simp only
        rw [ih _ _ _ _ hright, ok_bind]
        simp only
        rw [copyAndClamp_eq (by omega), ok_bind]
        refine (insertNode_eq digest henc _).trans ?_
        simp [storedNodes, treeNodes, insertEach_append, rootHash, rootNode]
      · simp

/-! ## The tree of a map -/

/-- The tree `prepare` builds for a map of leaves. -/
def treeOf (leaves : Leaves) : Except Error Tree :=
  layout leaves.toList.length leaves.toList 0

variable {leaves : Leaves}

theorem treeOf_spec (h : leaves ≠ ∅) :
    ∃ t, treeOf leaves = .ok t ∧ TreeWF 0 t ∧ t.entries = leaves.toList :=
  layout_spec _ _ 0 (Nat.le_refl _) (fun hnil => h (Std.ExtTreeMap.toList_eq_nil_iff.mp hnil))
    (by omega) Std.ExtTreeMap.ordered_keys_toList (fun _ _ _ _ _ _ hi => absurd hi (by omega))

theorem build_treeOf (digest : Digest) {t : Tree} (h : treeOf leaves = .ok t) :
    build digest leaves.toList.length leaves.toList 0 ∅ =
      .ok (rootHash digest t, insertEach ∅ (storedNodes digest t)) :=
  build_eq digest _ _ 0 ∅ t h

/-- An entry of the tree is an entry of the map. -/
theorem mem_entries_iff {t : Tree} (h : t.entries = leaves.toList) (key value : Hash) :
    (key, value) ∈ t.entries ↔ leaves[key]? = some value := by
  rw [h, Std.ExtTreeMap.mem_toList_iff_getElem?_eq_some]

end Foks.MerkleStore
