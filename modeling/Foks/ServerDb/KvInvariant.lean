/-
  The directory entries of the KV store.

  One mutation appends a version to the history of an entry, moves its head there, and the triggers
  rebuild its current row (`insertDirent_eq_ok`). From this follows that in every database that the
  writes can reach the histories have no gaps, the current rows are the heads that are not removed,
  and no two of them in one directory have the same name (`Consistent`). A listing goes on from
  the name of the last entry of a page; since names are different it misses nothing.
-/
import Foks.ServerDb.Kv

namespace Foks.ServerDb

open Foks.Lib Foks.Proto Foks.Verify

namespace KvDatabase

/-! ## What a mutation does -/

variable {db db' : KvDatabase} {row : KvDirentRow} {mutations : List KvDirentMutation}
  {place : KvPlace} {callerRole : Role}

section

variable {uid : List UInt8}

theorem account_eq_ok {bytes objects directories dirents : Int}
    (h : db.account uid bytes objects directories dirents = .ok db') :
    ∃ namespaces, db' = { db with namespaces } := by
  rcases ite_eq_ok h with ⟨-, h⟩ | ⟨-, h⟩
  · cases h
    exact ⟨_, rfl⟩
  · cases h

/-- The heads after an entry became the head of its place. -/
def headsAfter (db : KvDatabase) (row : KvDirentRow) : List KvDirentHead :=
  upsertRow KvDirentHead.place db.direntHeads ⟨row.uid, row.parent, row.id, row.version⟩

theorem direntVersion_headsAfter (hheads : db'.direntHeads = db.headsAfter row) (place : KvPlace) :
    db'.direntVersion place = if row.place = place then some row.version
      else db.direntVersion place := by
  unfold direntVersion
  rw [hheads, headsAfter, find?_upsertRow, apply_ite (Option.map _)]
  rfl

theorem kvDirent_headsAfter (hfresh : ∀ other ∈ db.dirents, other.versionPlace ≠ row.versionPlace)
    (hdirents : db'.dirents = db.dirents ++ [row]) (hheads : db'.direntHeads = db.headsAfter row)
    (place : KvPlace) :
    db'.kvDirent place = if row.place = place then some row else db.kvDirent place := by
  unfold kvDirent
  rw [direntVersion_headsAfter hheads, hdirents]
  split
  · rename_i hplace
    subst hplace
    have hnone : db.dirents.find? (fun other => other.versionPlace = row.versionPlace) = none :=
      List.find?_eq_none.mpr fun other hother => by simpa using hfresh other hother
    rw [Option.bind_eq_bind, Option.bind_some, List.find?_append]
    show ((db.dirents.find? fun other => other.versionPlace = row.versionPlace).or
      ([row].find? fun other => other.versionPlace = row.versionPlace)) = some row
    rw [hnone]
    simp
  · rename_i hplace
    cases hversion : db.direntVersion place with
    | none => rfl
    | some version =>
      have hother : row.versionPlace ≠ (place, version) := fun heq => hplace (congrArg (·.1) heq)
      simp [hother]

/-- The current row of an entry is that of its last version, if it is not removed. -/
def currentRows (row : KvDirentRow) : List KvCurrentRow :=
  if row.isLive then [row.toCurrent] else []

theorem projectHead_eq (h : db.kvDirent row.place = some row) :
    db.projectHead row.place = { db with
      current := (db.current.filter fun other => other.place ≠ row.place) ++ currentRows row } := by
  unfold projectHead currentRows
  rw [h]
  cases hlive : row.isLive with
  | true => simp [hlive]
  | false => simp [hlive]

/-- The trigger on the history touches the row of its entry only. -/
theorem projectHistory_frame (db : KvDatabase) (row : KvDirentRow) :
    ∃ current, db.projectHistory row = { db with current } ∧
      (current.filter fun other => other.place ≠ row.place) =
        db.current.filter fun other => other.place ≠ row.place := by
  unfold projectHistory
  split
  · refine ⟨_, rfl, ?_⟩
    rw [upsertRow, List.filter_append, List.filter_filter]
    have hnew : ([row.toCurrent].filter fun other => other.place ≠ row.place) = [] := by
      refine List.filter_eq_nil_iff.mpr fun other hother => ?_
      rw [List.mem_singleton.mp hother]
      simp [KvDirentRow.toCurrent, KvCurrentRow.place, KvDirentRow.place]
    rw [hnew, List.append_nil]
    congr 1
    funext other
    exact Bool.and_self _
  · exact ⟨_, rfl, rfl⟩

/-- An entry was appended to its history and became the head, and its current row was rebuilt. -/
structure DirentInserted (db db' : KvDatabase) (row : KvDirentRow) : Prop where
  fresh : ∀ other ∈ db.dirents, other.versionPlace ≠ row.versionPlace
  after : ∃ namespaces, db' = { db with
    namespaces
    dirents := db.dirents ++ [row]
    direntHeads := db.headsAfter row
    current := (db.current.filter fun other => other.place ≠ row.place) ++ currentRows row }

theorem insertDirent_eq_ok (h : db.insertDirent row = .ok db') : DirentInserted db db' row := by
  obtain ⟨_, -, h⟩ := bind_eq_ok.mp h
  obtain ⟨_, -, h⟩ := bind_eq_ok.mp h
  obtain ⟨dirents, hdirents, h⟩ := bind_eq_ok.mp h
  obtain ⟨mid, hmid, h⟩ := bind_eq_ok.mp h
  obtain ⟨hfresh, rfl⟩ := insertRow_eq_some.mp (okOr_eq_ok.mp hdirents)
  obtain ⟨current, hhistory, hfilter⟩ :=
    projectHistory_frame { db with dirents := db.dirents ++ [row] } row
  rw [hhistory] at hmid
  obtain ⟨first, rfl⟩ := account_eq_ok hmid
  obtain ⟨second, rfl⟩ := account_eq_ok h
  refine ⟨hfresh, second, ?_⟩
  let headed : KvDatabase := { db with
    namespaces := first
    dirents := db.dirents ++ [row]
    direntHeads := db.headsAfter row
    current := current }
  have hhead : headed.kvDirent row.place = some row := by
    rw [kvDirent_headsAfter hfresh rfl rfl, if_pos rfl]
  show { headed.projectHead row.place with namespaces := second } = _
  rw [projectHead_eq hhead]
  show ({ headed with
    namespaces := second
    current := (current.filter fun other => other.place ≠ row.place) ++ currentRows row } :
      KvDatabase) = _
  rw [hfilter]

namespace DirentInserted

variable {db db' : KvDatabase} {row : KvDirentRow}

section

variable (h : DirentInserted db db' row)
include h

theorem dirents : db'.dirents = db.dirents ++ [row] := by
  obtain ⟨_, rfl⟩ := h.after
  rfl

theorem mem_current {c : KvCurrentRow} :
    c ∈ db'.current ↔ c ∈ db.current ∧ c.place ≠ row.place ∨
      row.isLive = true ∧ c = row.toCurrent := by
  obtain ⟨_, rfl⟩ := h.after
  unfold currentRows
  cases row.isLive with
  | true => simp
  | false => simp

theorem direntVersion (place : KvPlace) :
    db'.direntVersion place = if row.place = place then some row.version
      else db.direntVersion place := by
  obtain ⟨_, rfl⟩ := h.after
  exact direntVersion_headsAfter rfl place

theorem kvDirent (place : KvPlace) :
    db'.kvDirent place = if row.place = place then some row else db.kvDirent place := by
  obtain ⟨_, rfl⟩ := h.after
  exact kvDirent_headsAfter h.fresh rfl rfl place

end

end DirentInserted

/-! ## The invariant -/

/-- The entry is the last version at its place, and it is not removed. -/
def IsLiveHead (db : KvDatabase) (row : KvDirentRow) : Prop :=
  db.kvDirent row.place = some row ∧ row.isLive = true

theorem kvDirent_eq_some (h : db.kvDirent place = some row) :
    row ∈ db.dirents ∧ row.place = place ∧ db.direntVersion place = some row.version := by
  obtain ⟨version, hversion, hfind⟩ := Option.bind_eq_some_iff.mp h
  have hplace : row.versionPlace = (place, version) := by simpa using List.find?_some hfind
  obtain ⟨rfl, rfl⟩ := Prod.mk.inj hplace
  exact ⟨List.mem_of_find?_eq_some hfind, rfl, hversion⟩

/-- What holds of the entries in every database that the writes reach. -/
structure Consistent (db : KvDatabase) : Prop where
  dirents : Keyed KvDirentRow.versionPlace db.dirents
  current : Keyed KvCurrentRow.place db.current
  heads : ∀ place head, db.direntVersion place = some head → 1 ≤ head
  versions : ∀ place version, (∃ row ∈ db.dirents, row.versionPlace = (place, version)) ↔
    ∃ head, db.direntVersion place = some head ∧ 1 ≤ version ∧ version ≤ head
  mem_current : ∀ c, c ∈ db.current ↔ ∃ row, db.IsLiveHead row ∧ c = row.toCurrent
  names : ∀ a ∈ db.current, ∀ b ∈ db.current, a.uid = b.uid → a.parent = b.parent →
    a.nameMac = b.nameMac → a.id = b.id

namespace Consistent

variable {db db' : KvDatabase}

/-- The last version of an entry is stored. -/
theorem kvDirent_of_version (h : db.Consistent) {head : UInt64}
    (hhead : db.direntVersion place = some head) :
    ∃ row, db.kvDirent place = some row ∧ row.version = head := by
  obtain ⟨row, hrow, hplace⟩ :=
    (h.versions place head).mpr ⟨head, hhead, h.heads place head hhead, UInt64.le_refl head⟩
  refine ⟨row, ?_, congrArg Prod.snd hplace⟩
  rw [kvDirent, hhead]
  exact h.dirents.find?_eq_some.mpr ⟨hrow, hplace⟩

theorem direntVersion_of_kvDirent (h : db.Consistent) (hnone : db.kvDirent place = none) :
    db.direntVersion place = none := by
  cases hhead : db.direntVersion place with
  | none => rfl
  | some head =>
    obtain ⟨row, hrow, -⟩ := h.kvDirent_of_version hhead
    rw [hnone] at hrow
    cases hrow

/-- The version that is expected comes right after those that are stored. -/
theorem versions_next (h : db.Consistent) {next : UInt64}
    (hnext : expectedVersion (db.kvDirent place) = .ok next) (version : UInt64) :
    (version = next ∨ ∃ head, db.direntVersion place = some head ∧ 1 ≤ version ∧ version ≤ head) ↔
      1 ≤ version ∧ version ≤ next := by
  cases hrow : db.kvDirent place with
  | none =>
    rw [hrow] at hnext
    cases hnext
    rw [h.direntVersion_of_kvDirent hrow]
    simp only [reduceCtorEq, false_and, exists_false, or_false]
    rw [← UInt64.toNat_inj, UInt64.le_iff_toNat_le, UInt64.le_iff_toNat_le]
    exact ⟨fun heq => by omega, fun hle => by omega⟩
  | some row =>
    rw [hrow] at hnext
    have hsum := checkedAddU64_eq_some.mp (okOr_eq_ok.mp hnext)
    obtain ⟨-, -, hversion⟩ := kvDirent_eq_some hrow
    have hone : (1 : UInt64).toNat = 1 := rfl
    simp only [hversion, Option.some.injEq, exists_eq_left']
    simp only [UInt64.le_iff_toNat_le, ← UInt64.toNat_inj]
    omega

/-- A next version under a name that no other entry of the directory has. -/
theorem insertDirent (h : db.Consistent) (hinsert : DirentInserted db db' row)
    (hnext : expectedVersion (db.kvDirent row.place) = .ok row.version)
    (hfree : row.isLive = true → db.nameConflict row.place row.nameMac = false) :
    db'.Consistent where
  dirents := by
    rw [hinsert.dirents]
    refine h.dirents.append (keyed_singleton row) fun new hnew => ?_
    rw [List.mem_singleton.mp hnew]
    exact hinsert.fresh
  current := by
    obtain ⟨_, rfl⟩ := hinsert.after
    refine Keyed.append (List.Nodup.sublist (List.filter_sublist.map _) h.current) ?_ ?_
    · unfold currentRows
      split
      · exact keyed_singleton _
      · exact keyed_nil
    · intro new hnew other hother
      have hplace : new.place = row.place := by
        unfold currentRows at hnew
        split at hnew
        · rw [List.mem_singleton.mp hnew]
          rfl
        · cases hnew
      rw [hplace]
      simpa using (List.mem_filter.mp hother).2
  heads := by
    intro place head hhead
    rw [hinsert.direntVersion] at hhead
    split at hhead
    · cases hhead
      exact ((h.versions_next hnext row.version).mp (.inl rfl)).1
    · exact h.heads place head hhead
  versions := by
    intro place version
    rw [hinsert.direntVersion, hinsert.dirents]
    simp only [List.mem_append, List.mem_singleton, or_and_right, exists_or, exists_eq_left]
    by_cases hplace : row.place = place
    · subst hplace
      rw [if_pos rfl, h.versions, or_comm]
      have hiff : row.versionPlace = (row.place, version) ↔ version = row.version := by
        simp [KvDirentRow.versionPlace, eq_comm]
      rw [hiff, h.versions_next hnext]
      simp
    · have hother : row.versionPlace ≠ (place, version) := fun heq => hplace (congrArg (·.1) heq)
      rw [if_neg hplace, h.versions]
      simp [hother]
  mem_current := by
    intro c
    rw [hinsert.mem_current, h.mem_current]
    constructor
    · rintro (⟨⟨other, ⟨hhead, hlive⟩, rfl⟩, hplace⟩ | ⟨hlive, rfl⟩)
      · refine ⟨other, ⟨?_, hlive⟩, rfl⟩
        rw [hinsert.kvDirent, if_neg fun heq => hplace heq.symm]
        exact hhead
      · refine ⟨row, ⟨?_, hlive⟩, rfl⟩
        rw [hinsert.kvDirent, if_pos rfl]
    · rintro ⟨other, ⟨hhead, hlive⟩, rfl⟩
      rw [hinsert.kvDirent] at hhead
      split at hhead
      · cases hhead
        exact .inr ⟨hlive, rfl⟩
      · rename_i hplace
        exact .inl ⟨⟨other, ⟨hhead, hlive⟩, rfl⟩, fun heq => hplace heq.symm⟩
  names := by
    have hnew : row.isLive = true → ∀ b ∈ db.current, b.place ≠ row.place → b.uid = row.uid →
        b.parent = row.parent → b.nameMac ≠ row.nameMac := by
      intro hlive b hb hplace huid hparent hmac
      have hconflict := hfree hlive
      rw [nameConflict, List.any_eq_false] at hconflict
      refine hconflict b hb (decide_eq_true ⟨huid, hparent, fun hid => hplace ?_, hmac⟩)
      rw [KvCurrentRow.place, huid, hparent, hid]
      rfl
    intro a ha b hb huid hparent hmac
    rcases hinsert.mem_current.mp ha with ⟨ha, hplaceA⟩ | ⟨hlive, rfl⟩
    · rcases hinsert.mem_current.mp hb with ⟨hb, -⟩ | ⟨hlive, rfl⟩
      · exact h.names a ha b hb huid hparent hmac
      · exact absurd hmac (hnew hlive a ha hplaceA huid hparent)
    · rcases hinsert.mem_current.mp hb with ⟨hb, hplaceB⟩ | ⟨-, rfl⟩
      · exact absurd hmac.symm (hnew hlive b hb hplaceB huid.symm hparent.symm)
      · rfl

end Consistent

/-! ## A batch -/

/-- What a mutation that was accepted did. -/
structure DirentPut (uid : List UInt8) (db db' : KvDatabase) (mutation : KvDirentMutation)
    (existing : Option KvDirentRow) : Prop where
  node : db.nodeReferenceExists uid mutation.node = true
  next : expectedVersion existing = .ok mutation.version
  free : (mutation.row uid).isLive = true →
    db.nameConflict (mutation.row uid).place mutation.nameMac = false
  inserted : DirentInserted db db' (mutation.row uid)

theorem putDirent_eq_ok {step : KvDirentMutation × Option KvDirentRow}
    (h : putDirent uid callerRole db step = .ok db') : DirentPut uid db db' step.1 step.2 := by
  obtain ⟨_, -, h⟩ := bind_eq_ok.mp h
  obtain ⟨version, -, h⟩ := bind_eq_ok.mp h
  obtain ⟨hexist, h⟩ := ite_error_eq_ok.mp h
  obtain ⟨expected, hexpected, h⟩ := bind_eq_ok.mp h
  obtain ⟨hversion, hbody⟩ := ite_error_eq_ok.mp h
  obtain ⟨hname, hinsert⟩ := ite_error_eq_ok.mp hbody
  simp only [Bool.not_eq_true', not_or, Bool.not_eq_false] at hexist
  rw [← not_not.mp hversion] at hexpected
  refine ⟨hexist.2, hexpected, ?_, insertDirent_eq_ok hinsert⟩
  intro hlive
  simp only [KvDirentRow.isLive, decide_eq_true_eq] at hlive
  exact Bool.eq_false_iff.mpr fun hconflict => hname ⟨hlive, hconflict⟩

/-- A batch: one mutation after the other, each with the entry that the batch found. -/
inductive Batch (uid : List UInt8) : List (KvDirentMutation × Option KvDirentRow) →
    KvDatabase → KvDatabase → Prop
  | nil (db : KvDatabase) : Batch uid [] db db
  | cons {step : KvDirentMutation × Option KvDirentRow}
      {steps : List (KvDirentMutation × Option KvDirentRow)} {db mid db' : KvDatabase} :
      DirentPut uid db mid step.1 step.2 → Batch uid steps mid db' →
      Batch uid (step :: steps) db db'

theorem foldlM_putDirent {steps : List (KvDirentMutation × Option KvDirentRow)}
    (h : steps.foldlM (putDirent uid callerRole) db = .ok db') : Batch uid steps db db' := by
  induction steps generalizing db with
  | nil =>
    cases h
    exact .nil _
  | cons step steps ih =>
    obtain ⟨mid, hmid, h⟩ := bind_eq_ok.mp h
    exact .cons (putDirent_eq_ok hmid) (ih h)

theorem batchIsValid_eq_ok {config : KvConfig} (h : batchIsValid config uid mutations = .ok ()) :
    (mutations.map fun mutation => (mutation.parent, mutation.id)).Nodup := by
  obtain ⟨-, h⟩ := ite_error_eq_ok.mp h
  obtain ⟨hvalid, -⟩ := ite_error_eq_ok.mp h
  exact not_not.mp (not_or.mp hvalid).2

/-- What the transaction of a batch does: nothing, if every entry already is as the batch wants it,
    and otherwise the mutations under the precondition. -/
theorem putDirents_eq_ok {precondition : Option KvPathVersionVector}
    (h : putDirents uid precondition callerRole mutations db = .ok db') :
    db' = db ∨ db.requireVersions uid precondition = .ok () ∧
      Batch uid (db.existingHeads uid mutations) db db' := by
  rcases ite_eq_ok h with ⟨-, h⟩ | ⟨-, h⟩
  · cases h
    exact .inl rfl
  · obtain ⟨_, hversions, h⟩ := bind_eq_ok.mp h
    obtain ⟨_, -, h⟩ := bind_eq_ok.mp h
    obtain ⟨_, -, h⟩ := bind_eq_ok.mp h
    exact .inr ⟨hversions, foldlM_putDirent h⟩

/-- What a batch did that was carried out: its rows are appended to the history and are the last
    versions of their entries, and nothing else changed but the current rows and the counters. -/
structure BatchDone (uid : List UInt8) (mutations : List KvDirentMutation)
    (db db' : KvDatabase) : Prop where
  places : (mutations.map fun mutation => (mutation.parent, mutation.id)).Nodup
  dirents : db'.dirents = db.dirents ++ mutations.map (·.row uid)
  placed : ∀ mutation ∈ mutations, db'.kvDirent (mutation.row uid).place = some (mutation.row uid)
  others : ∀ place, (∀ mutation ∈ mutations, (mutation.row uid).place ≠ place) →
    db'.kvDirent place = db.kvDirent place
  nodes : ∀ mutation ∈ mutations, db.nodeReferenceExists uid mutation.node = true
  next : ∀ mutation ∈ mutations,
    expectedVersion (db.kvDirent (mutation.row uid).place) = .ok mutation.version
  directories : db'.directories = db.directories
  directoryHeads : db'.directoryHeads = db.directoryHeads
  roots : db'.roots = db.roots
  consistent : db.Consistent → db'.Consistent

/-- What a node refers to is in tables that entries do not touch. -/
theorem DirentInserted.nodeReferenceExists (h : DirentInserted db db' row) (uid : List UInt8)
    (node : KvNodeId) : db'.nodeReferenceExists uid node = db.nodeReferenceExists uid node := by
  obtain ⟨_, rfl⟩ := h.after
  rfl

theorem Batch.done {mutations : List KvDirentMutation}
    {existing : KvDirentMutation → Option KvDirentRow} {db db' : KvDatabase}
    (h : Batch uid (mutations.map fun mutation => (mutation, existing mutation)) db db')
    (hplaces : (mutations.map fun mutation => (mutation.parent, mutation.id)).Nodup)
    (hexisting : ∀ mutation ∈ mutations, existing mutation = db.kvDirent (mutation.row uid).place) :
    BatchDone uid mutations db db' := by
  induction mutations generalizing db with
  | nil =>
    cases h
    exact ⟨hplaces, (List.append_nil _).symm, by simp, fun _ _ => rfl, by simp, by simp, rfl, rfl,
      rfl, id⟩
  | cons mutation mutations ih =>
    obtain ⟨mid, hput, hrest⟩ : ∃ mid, DirentPut uid db mid mutation (existing mutation) ∧
        Batch uid (mutations.map fun mutation => (mutation, existing mutation)) mid db' := by
      cases h with
      | cons hput hrest => exact ⟨_, hput, hrest⟩
    obtain ⟨hfirst, hplaces'⟩ := List.nodup_cons.mp hplaces
    have hne : ∀ other ∈ mutations, (mutation.row uid).place ≠ (other.row uid).place := by
      intro other hother heq
      exact hfirst (List.mem_map.mpr ⟨other, hother, (Prod.mk.inj heq).2.symm⟩)
    have hmid : ∀ other ∈ mutations,
        mid.kvDirent (other.row uid).place = db.kvDirent (other.row uid).place := by
      intro other hother
      rw [hput.inserted.kvDirent, if_neg (hne other hother)]
    have hdone := ih hrest hplaces' fun other hother => by
      rw [hmid other hother]
      exact hexisting other (List.mem_cons_of_mem _ hother)
    have hnext := hexisting mutation List.mem_cons_self ▸ hput.next
    refine ⟨hplaces, ?_, ?_, ?_, ?_, ?_, ?_, ?_, ?_, fun hdb => ?_⟩
    · rw [hdone.dirents, hput.inserted.dirents, List.map_cons, List.append_assoc]
      rfl
    · intro other hother
      rcases List.mem_cons.mp hother with rfl | hother
      · rw [hdone.others _ fun later hlater => (hne later hlater).symm, hput.inserted.kvDirent,
          if_pos rfl]
      · exact hdone.placed other hother
    · intro place hplace
      rw [hdone.others place fun later hlater => hplace later (List.mem_cons_of_mem _ hlater),
        hput.inserted.kvDirent, if_neg (hplace mutation List.mem_cons_self)]
    · intro other hother
      rcases List.mem_cons.mp hother with rfl | hother
      · exact hput.node
      · rw [← hput.inserted.nodeReferenceExists]
        exact hdone.nodes other hother
    · intro other hother
      rcases List.mem_cons.mp hother with rfl | hother
      · exact hnext
      · rw [← hmid other hother]
        exact hdone.next other hother
    · obtain ⟨_, rfl⟩ := hput.inserted.after
      exact hdone.directories
    · obtain ⟨_, rfl⟩ := hput.inserted.after
      exact hdone.directoryHeads
    · obtain ⟨_, rfl⟩ := hput.inserted.after
      exact hdone.roots
    · exact hdone.consistent (hdb.insertDirent hput.inserted hnext hput.free)

/-! ## What a write does -/

/-- The namespaces are as they were, or a known party without one got its empty namespace. -/
def EntersNamespace (db : KvDatabase) (uid : List UInt8) (namespaces : List KvNamespaceRow) :
    Prop :=
  namespaces = db.namespaces ∨
    (∀ row ∈ db.namespaces, row.id ≠ uid) ∧ ∃ party ∈ db.parties, party.id = uid ∧
      namespaces = db.namespaces ++ [⟨uid, party.partyKind, party.hostId, 0, 0, 0, 0⟩]

theorem ensureKvNamespace_eq_ok {after : KvDatabase} {known : Bool}
    (h : db.ensureKvNamespace uid = .ok (known, after)) :
    ∃ namespaces, db.EntersNamespace uid namespaces ∧ after = { db with namespaces } := by
  obtain ⟨-, h⟩ := ite_error_eq_ok.mp h
  cases hparty : db.parties.find? fun row => row.id = uid with
  | none =>
    rw [hparty] at h
    cases h
    exact ⟨_, .inl rfl, rfl⟩
  | some party =>
    cases hrow : db.namespaces.find? fun row => row.id = uid with
    | none =>
      simp only [hparty, hrow] at h
      cases h
      refine ⟨_, .inr ⟨fun row hmem => ?_, party, List.mem_of_find?_eq_some hparty, ?_, rfl⟩, rfl⟩
      · simpa using List.find?_eq_none.mp hrow row hmem
      · simpa using List.find?_some hparty
    | some row =>
      simp only [hparty, hrow] at h
      cases h
      exact ⟨_, .inl rfl, rfl⟩

/-- A write that ends in an error leaves everything but the namespaces as it was. -/
theorem inNamespace_cases (db : KvDatabase) (uid : List UInt8)
    (transaction : KvDatabase → Except Error KvDatabase) :
    ∃ namespaces, db.EntersNamespace uid namespaces ∧
      ((∃ error, db.inNamespace uid transaction = (.error error, { db with namespaces })) ∨
        ∃ db', db.inNamespace uid transaction = (.ok (), db') ∧
          transaction { db with namespaces } = .ok db') := by
  unfold inNamespace
  match hcase : db.ensureKvNamespace uid with
  | .error error => exact ⟨db.namespaces, .inl rfl, .inl ⟨error, rfl⟩⟩
  | .ok (false, after) =>
    obtain ⟨namespaces, henters, rfl⟩ := ensureKvNamespace_eq_ok hcase
    exact ⟨namespaces, henters, .inl ⟨_, rfl⟩⟩
  | .ok (true, after) =>
    obtain ⟨namespaces, henters, rfl⟩ := ensureKvNamespace_eq_ok hcase
    refine ⟨namespaces, henters, ?_⟩
    cases htransaction : transaction { db with namespaces } with
    | error error => exact .inl ⟨error, by simp only [htransaction]⟩
    | ok db' => exact .inr ⟨db', by simp only [htransaction], rfl⟩

/-- The three tables of entries are the same. -/
def SameEntries (db db' : KvDatabase) : Prop :=
  db'.dirents = db.dirents ∧ db'.direntHeads = db.direntHeads ∧ db'.current = db.current

theorem Consistent.sameEntries (h : db.Consistent) (hsame : SameEntries db db') :
    db'.Consistent := by
  obtain ⟨hdirents, hheads, hcurrent⟩ := hsame
  have hversion (place : KvPlace) : db'.direntVersion place = db.direntVersion place := by
    rw [direntVersion, hheads]
    rfl
  have hdirent (place : KvPlace) : db'.kvDirent place = db.kvDirent place := by
    rw [kvDirent, hversion, hdirents]
    rfl
  refine ⟨hdirents ▸ h.dirents, hcurrent ▸ h.current, ?_, ?_, ?_, hcurrent ▸ h.names⟩
  · intro place head hhead
    exact h.heads place head (hversion place ▸ hhead)
  · intro place version
    rw [hversion, hdirents]
    exact h.versions place version
  · intro c
    simp only [IsLiveHead, hdirent, hcurrent]
    exact h.mem_current c

inductive KvWrite where
  | directory (mutation : KvDirectoryMutation) (precondition : Option KvPathVersionVector)
  | node (mutation : KvNodeMutation)
  | root (mutation : KvRootMutation)
  | dirents (uid : List UInt8) (precondition : Option KvPathVersionVector) (callerRole : Role)
      (mutations : List KvDirentMutation)

def write (db : KvDatabase) : KvWrite → Except Error Unit × KvDatabase
  | .directory mutation precondition => db.putKvDirectory mutation precondition
  | .node mutation => db.putKvNode mutation
  | .root mutation => db.putKvRoot mutation
  | .dirents uid precondition callerRole mutations =>
    db.putKvDirents uid precondition callerRole mutations

/-- A directory is new or nothing changes; then it was refused or is there already. -/
theorem putKvDirectory_cases (db : KvDatabase) (mutation : KvDirectoryMutation)
    (precondition : Option KvPathVersionVector) :
    ∃ namespaces, ((db.putKvDirectory mutation precondition).2 = { db with namespaces } ∧
        ((db.putKvDirectory mutation precondition).1 = .ok () →
          (db.directoryVersion mutation.uid mutation.id).isSome = true)) ∨
      ∃ row, row.uid = mutation.uid ∧ row.id = mutation.id ∧
        (db.putKvDirectory mutation precondition).2 = { db with
        namespaces
        directories := db.directories ++ [row]
        directoryHeads := db.directoryHeads ++
          [⟨mutation.uid, mutation.id, mutation.version⟩] } := by
  unfold putKvDirectory
  split
  · exact ⟨db.namespaces, .inl ⟨rfl, by simp⟩⟩
  obtain ⟨namespaces, -, ⟨_, heq⟩ | ⟨db', heq, htransaction⟩⟩ := db.inNamespace_cases mutation.uid _
  · exact ⟨namespaces, .inl ⟨congrArg Prod.snd heq, by simp [heq]⟩⟩
  · rw [heq]
    split at htransaction
    · rename_i row hrow
      obtain ⟨version, hversion, -⟩ := Option.bind_eq_some_iff.mp hrow
      rcases ite_eq_ok htransaction with ⟨-, h⟩ | ⟨-, h⟩
      · cases h
        refine ⟨namespaces, .inl ⟨rfl, fun _ => ?_⟩⟩
        exact Option.isSome_iff_exists.mpr ⟨version, hversion⟩
      · cases h
    · obtain ⟨_, -, h⟩ := bind_eq_ok.mp htransaction
      obtain ⟨_, -, h⟩ := bind_eq_ok.mp h
      obtain ⟨_, -, h⟩ := bind_eq_ok.mp h
      obtain ⟨_, -, h⟩ := bind_eq_ok.mp h
      obtain ⟨_, -, h⟩ := bind_eq_ok.mp h
      obtain ⟨directories, hdirectories, h⟩ := bind_eq_ok.mp h
      obtain ⟨mid, hmid, h⟩ := bind_eq_ok.mp h
      obtain ⟨heads, hheads, h⟩ := bind_eq_ok.mp h
      obtain ⟨first, rfl⟩ := account_eq_ok hmid
      obtain ⟨second, rfl⟩ := account_eq_ok h
      obtain ⟨-, rfl⟩ := insertRow_eq_some.mp (okOr_eq_ok.mp hdirectories)
      obtain ⟨-, rfl⟩ := insertRow_eq_some.mp (okOr_eq_ok.mp hheads)
      exact ⟨second, .inr ⟨_, rfl, rfl, rfl⟩⟩

theorem putKvNode_cases (db : KvDatabase) (mutation : KvNodeMutation) :
    ∃ namespaces nodes, (db.putKvNode mutation).2 = { db with namespaces, nodes } := by
  unfold putKvNode
  split
  · exact ⟨db.namespaces, db.nodes, rfl⟩
  obtain ⟨namespaces, -, ⟨_, heq⟩ | ⟨db', heq, htransaction⟩⟩ := db.inNamespace_cases mutation.uid _
  · exact ⟨namespaces, db.nodes, congrArg Prod.snd heq⟩
  · rw [heq]
    split at htransaction
    · obtain ⟨-, h⟩ := ite_error_eq_ok.mp htransaction
      rcases ite_eq_ok h with ⟨-, h⟩ | ⟨-, h⟩
      · cases h
        exact ⟨namespaces, db.nodes, rfl⟩
      · obtain ⟨_, -, h⟩ := bind_eq_ok.mp h
        cases h
        exact ⟨namespaces, _, rfl⟩
    · obtain ⟨_, -, h⟩ := bind_eq_ok.mp htransaction
      obtain ⟨_, -, h⟩ := bind_eq_ok.mp h
      obtain ⟨nodes, -, h⟩ := bind_eq_ok.mp h
      obtain ⟨first, rfl⟩ := account_eq_ok h
      exact ⟨first, nodes, rfl⟩

/-- A root is written if it is the first one or follows the one before it, and its directory is
    there. -/
theorem putKvRoot_cases (db : KvDatabase) (mutation : KvRootMutation) :
    ∃ namespaces, (db.putKvRoot mutation).2 = { db with namespaces } ∨
      ∃ root, rootFollows (db.kvRoot mutation.uid) mutation = .ok true ∧ root.uid = mutation.uid ∧
        root.version = mutation.version ∧
        db.directoryExists root.uid root.directoryId root.directoryVersion = true ∧
        (db.putKvRoot mutation).2 = { db with
          namespaces
          roots := upsertRow KvRootRow.uid db.roots root } := by
  unfold putKvRoot
  split
  · exact ⟨db.namespaces, .inl rfl⟩
  obtain ⟨namespaces, -, ⟨_, heq⟩ | ⟨db', heq, htransaction⟩⟩ := db.inNamespace_cases mutation.uid _
  · exact ⟨namespaces, .inl (congrArg Prod.snd heq)⟩
  · rw [heq]
    obtain ⟨changes, hfollows, h⟩ := bind_eq_ok.mp htransaction
    rcases ite_eq_ok h with ⟨-, h⟩ | ⟨hchanges, h⟩
    · cases h
      exact ⟨namespaces, .inl rfl⟩
    · obtain ⟨directoryVersion, -, h⟩ := bind_eq_ok.mp h
      obtain ⟨hexists, h⟩ := ite_error_eq_ok.mp h
      obtain ⟨_, -, h⟩ := bind_eq_ok.mp h
      obtain ⟨version, hversion, h⟩ := bind_eq_ok.mp h
      obtain ⟨last, rfl⟩ := account_eq_ok h
      simp only [Bool.not_eq_true', Bool.not_eq_false] at hchanges hexists
      exact ⟨last, .inr ⟨⟨mutation.uid, version, mutation.directoryId, directoryVersion,
        mutation.exact⟩, hchanges ▸ hfollows, rfl, (sqlInteger_eq_ok.mp hversion).2, hexists, rfl⟩⟩

/-! ## Preconditions -/

/-- The object is there, and not older than cited. -/
def Since (cited : UInt64) (version : Option UInt64) : Prop :=
  ∃ now, version = some now ∧ cited ≤ now

/-- Nothing that is cited is missing or older than cited. -/
def CitedSince (db : KvDatabase) (uid : List UInt8) (directories : List KvDirectoryVersion) :
    Prop :=
  ∀ directory ∈ directories, Since directory.version (db.directoryVersion uid directory.id) ∧
    ∀ entry ∈ directory.entries,
      Since entry.version (db.direntVersion (uid, directory.id, entry.id))

/-- Everything that is cited is at the version cited. -/
def CitedNow (db : KvDatabase) (uid : List UInt8) (directories : List KvDirectoryVersion) : Prop :=
  ∀ directory ∈ directories, db.directoryVersion uid directory.id = some directory.version ∧
    ∀ entry ∈ directory.entries,
      db.direntVersion (uid, directory.id, entry.id) = some entry.version

/-- The entries of a directory that are not as cited any more, as they are now. -/
def changedEntries (db : KvDatabase) (uid : List UInt8) (directory : FixedBytes 16)
    (entries : List KvDirentVersion) : List KvDirentVersion :=
  entries.filterMap fun entry =>
    ((db.direntVersion (uid, directory, entry.id)).filter (· ≠ entry.version)).map (⟨entry.id, ·⟩)

/-- The directories that are not as cited any more, or have an entry that is not. -/
def changedDirectories (db : KvDatabase) (uid : List UInt8)
    (directories : List KvDirectoryVersion) : List KvDirectoryVersion :=
  directories.filterMap fun directory =>
    ((db.directoryVersion uid directory.id).filter fun version => version ≠ directory.version ∨
        db.changedEntries uid directory.id directory.entries ≠ []).map
      (⟨directory.id, ·, db.changedEntries uid directory.id directory.entries⟩)

/-- A check looks at whether the version is newer, which is whether it is another one. -/
theorem newer_iff {current cited : UInt64} (h : ¬ current < cited) :
    current > cited ↔ current ≠ cited := by
  rw [gt_iff_lt, UInt64.lt_iff_le_and_ne, ne_comm]
  exact and_iff_right (UInt64.not_lt.mp h)

theorem staleEntries_eq_ok {directory : FixedBytes 16} {entries stale : List KvDirentVersion} :
    db.staleEntries uid directory entries = .ok stale ↔
      (∀ entry ∈ entries, Since entry.version (db.direntVersion (uid, directory, entry.id))) ∧
        stale = db.changedEntries uid directory entries := by
  induction entries generalizing stale with
  | nil => exact ⟨fun h => ⟨nofun, (Except.ok.inj h).symm⟩, fun h => by rw [h.2]; rfl⟩
  | cons entry entries ih =>
    rw [staleEntries, List.forall_mem_cons]
    cases hversion : db.direntVersion (uid, directory, entry.id) with
    | none => simp [Since]
    | some current =>
      by_cases hold : current < entry.version
      · simp [Since, hold, UInt64.not_le]
      · have hsince : Since entry.version (some current) := ⟨current, rfl, UInt64.not_lt.mp hold⟩
        have hnow : db.changedEntries uid directory (entry :: entries) =
            if current ≠ entry.version then
              ⟨entry.id, current⟩ :: db.changedEntries uid directory entries
            else db.changedEntries uid directory entries := by
          split
          · exact List.filterMap_cons_some (by simp_all)
          · exact List.filterMap_cons_none (by simp_all)
        simp only [if_neg hold, bind_eq_ok, ih, newer_iff hold, hnow]
        constructor
        · rintro ⟨_, ⟨hrest, rfl⟩, heq⟩
          exact ⟨⟨hsince, hrest⟩, (Except.ok.inj heq).symm⟩
        · rintro ⟨⟨-, hrest⟩, rfl⟩
          exact ⟨_, ⟨hrest, rfl⟩, rfl⟩

theorem staleDirectories_eq_ok {directories stale : List KvDirectoryVersion} :
    db.staleDirectories uid directories = .ok stale ↔
      db.CitedSince uid directories ∧ stale = db.changedDirectories uid directories := by
  unfold CitedSince
  induction directories generalizing stale with
  | nil => exact ⟨fun h => ⟨nofun, (Except.ok.inj h).symm⟩, fun h => by rw [h.2]; rfl⟩
  | cons directory directories ih =>
    rw [staleDirectories, List.forall_mem_cons]
    cases hversion : db.directoryVersion uid directory.id with
    | none => simp [Since]
    | some current =>
      by_cases hold : current < directory.version
      · simp [Since, hold, UInt64.not_le]
      · have hsince : Since directory.version (some current) :=
          ⟨current, rfl, UInt64.not_lt.mp hold⟩
        have hnow : db.changedDirectories uid (directory :: directories) =
            if current ≠ directory.version ∨
                db.changedEntries uid directory.id directory.entries ≠ [] then
              ⟨directory.id, current, db.changedEntries uid directory.id directory.entries⟩ ::
                db.changedDirectories uid directories
            else db.changedDirectories uid directories := by
          split
          · rename_i hchanged
            exact List.filterMap_cons_some (by simp [hversion, hchanged])
          · rename_i hchanged
            exact List.filterMap_cons_none (by simpa [hversion, not_or] using hchanged)
        simp only [if_neg hold, bind_eq_ok, staleEntries_eq_ok, ih, newer_iff hold, hnow]
        constructor
        · rintro ⟨_, ⟨hentries, rfl⟩, _, ⟨hrest, rfl⟩, heq⟩
          exact ⟨⟨⟨hsince, hentries⟩, hrest⟩, (Except.ok.inj heq).symm⟩
        · rintro ⟨⟨⟨-, hentries⟩, hrest⟩, rfl⟩
          exact ⟨_, ⟨hentries, rfl⟩, _, ⟨hrest, rfl⟩, rfl⟩

theorem changedEntries_eq_nil {directory : FixedBytes 16} {entries : List KvDirentVersion}
    (h : ∀ entry ∈ entries, Since entry.version (db.direntVersion (uid, directory, entry.id))) :
    db.changedEntries uid directory entries = [] ↔
      ∀ entry ∈ entries, db.direntVersion (uid, directory, entry.id) = some entry.version := by
  rw [changedEntries, List.filterMap_eq_nil_iff]
  refine forall₂_congr fun entry hentry => ?_
  obtain ⟨now, hnow, -⟩ := h entry hentry
  simp [hnow]

/-- Nothing changed if every cited object is at the version cited. -/
theorem changedDirectories_eq_nil {directories : List KvDirectoryVersion}
    (h : db.CitedSince uid directories) :
    db.changedDirectories uid directories = [] ↔ db.CitedNow uid directories := by
  rw [changedDirectories, List.filterMap_eq_nil_iff]
  refine forall₂_congr fun directory hdirectory => ?_
  obtain ⟨⟨now, hnow, -⟩, hentries⟩ := h directory hdirectory
  rw [← changedEntries_eq_nil hentries, hnow]
  simp

/-- The check ends early only with what is missing or too new. -/
theorem staleEntries_ensures (uid : List UInt8) (directory : FixedBytes 16)
    (entries : List KvDirentVersion) :
    Ensures (· ≠ .current) (fun _ => True) (db.staleEntries uid directory entries) := by
  induction entries with
  | nil => trivial
  | cons entry entries ih =>
    rw [staleEntries]
    split
    · simp [Ensures]
    · exact .guard (by simp) fun _ => ih.bind fun _ _ => trivial

theorem staleDirectories_ensures (uid : List UInt8) (directories : List KvDirectoryVersion) :
    Ensures (· ≠ .current) (fun _ => True) (db.staleDirectories uid directories) := by
  induction directories with
  | nil => trivial
  | cons directory directories ih =>
    rw [staleDirectories]
    split
    · simp [Ensures]
    · exact .guard (by simp) fun _ =>
        (db.staleEntries_ensures uid _ _).bind fun _ _ => ih.bind fun _ _ => trivial

/-- Under a precondition every entry that it cites is at the version it cites. -/
theorem requireVersions_eq_ok {supplied : KvPathVersionVector}
    (h : db.requireVersions uid (some supplied) = .ok ()) :
    ∀ directory ∈ supplied.directories, ∀ entry ∈ directory.entries,
      db.direntVersion (uid, directory.id, entry.id) = some entry.version := by
  have hcurrent : db.kvVersionCheck uid supplied = .current := by
    rcases ite_eq_ok h with ⟨hcurrent, -⟩ | ⟨-, h⟩
    · exact hcurrent
    · cases h
  unfold kvVersionCheck at hcurrent
  cases hroot : db.kvRoot uid with
  | none =>
    rw [hroot] at hcurrent
    cases hcurrent
  | some root =>
    simp only [hroot] at hcurrent
    split at hcurrent
    · cases hcurrent
    cases hstale : db.staleDirectories uid supplied.directories with
    | error check =>
      simp only [hstale] at hcurrent
      exact absurd hcurrent ((db.staleDirectories_ensures uid _).of_error hstale)
    | ok stale =>
      simp only [hstale] at hcurrent
      split at hcurrent
      · rename_i hnil
        obtain ⟨hsince, hchanged⟩ := staleDirectories_eq_ok.mp hstale
        have hcited := (changedDirectories_eq_nil hsince).mp (hchanged.symm.trans hnil.2)
        exact fun directory hdirectory => (hcited directory hdirectory).2
      · cases hcurrent

/-- A batch is carried out under its precondition, or a party that had no namespace may get one and
    nothing else changes. -/
theorem putKvDirents_cases (db : KvDatabase) (uid : List UInt8)
    (precondition : Option KvPathVersionVector) (callerRole : Role)
    (mutations : List KvDirentMutation) :
    (∃ namespaces, db.EntersNamespace uid namespaces ∧
      (db.putKvDirents uid precondition callerRole mutations).2 = { db with namespaces }) ∨
    (∀ supplied, precondition = some supplied → ∀ directory ∈ supplied.directories,
      ∀ entry ∈ directory.entries,
        db.direntVersion (uid, directory.id, entry.id) = some entry.version) ∧
      (db.putKvDirents uid precondition callerRole mutations).1 = .ok () ∧
      BatchDone uid mutations db (db.putKvDirents uid precondition callerRole mutations).2 := by
  unfold putKvDirents
  split
  · exact .inl ⟨db.namespaces, .inl rfl, rfl⟩
  · rename_i hvalid
    obtain ⟨namespaces, henters, ⟨_, heq⟩ | ⟨db', heq, htransaction⟩⟩ :=
      db.inNamespace_cases uid (putDirents uid precondition callerRole mutations)
    · exact .inl ⟨namespaces, henters, by rw [heq]⟩
    · rw [heq]
      rcases putDirents_eq_ok htransaction with rfl | ⟨hversions, hbatch⟩
      · exact .inl ⟨namespaces, henters, rfl⟩
      · refine .inr ⟨?_, rfl, ?_⟩
        · rintro supplied rfl
          have hcited := requireVersions_eq_ok hversions
          exact hcited
        have hdone := hbatch.done (batchIsValid_eq_ok hvalid) fun _ _ => rfl
        exact ⟨hdone.places, hdone.dirents, hdone.placed, hdone.others, hdone.nodes, hdone.next,
          hdone.directories, hdone.directoryHeads, hdone.roots,
          fun h => hdone.consistent (h.sameEntries ⟨rfl, rfl, rfl⟩)⟩

theorem Consistent.putKvDirents (h : db.Consistent) (uid : List UInt8)
    (precondition : Option KvPathVersionVector) (callerRole : Role)
    (mutations : List KvDirentMutation) :
    (db.putKvDirents uid precondition callerRole mutations).2.Consistent := by
  rcases db.putKvDirents_cases uid precondition callerRole mutations with
    ⟨namespaces, -, heq⟩ | ⟨-, -, hdone⟩
  · rw [heq]
    exact h.sameEntries ⟨rfl, rfl, rfl⟩
  · exact hdone.consistent h

/-! ## Every database that the writes reach -/

theorem Consistent.write (h : db.Consistent) (request : KvWrite) :
    (db.write request).2.Consistent := by
  cases request with
  | directory mutation precondition =>
    rw [KvDatabase.write]
    obtain ⟨_, ⟨heq, -⟩ | ⟨_, -, -, heq⟩⟩ := db.putKvDirectory_cases mutation precondition <;>
    · rw [heq]
      exact h.sameEntries ⟨rfl, rfl, rfl⟩
  | node mutation =>
    obtain ⟨_, _, heq⟩ := db.putKvNode_cases mutation
    rw [KvDatabase.write, heq]
    exact h.sameEntries ⟨rfl, rfl, rfl⟩
  | root mutation =>
    rw [KvDatabase.write]
    obtain ⟨_, heq | ⟨_, -, -, -, -, heq⟩⟩ := db.putKvRoot_cases mutation <;>
    · rw [heq]
      exact h.sameEntries ⟨rfl, rfl, rfl⟩
  | dirents uid precondition callerRole mutations =>
    exact h.putKvDirents uid precondition callerRole mutations

/-- The databases that the writes reach, accepted or refused, while parties and uploads come and
    go. -/
inductive Reached : KvDatabase → Prop
  | empty (config : KvConfig) (parties : List KvPartyRow) (uploads : List KvUploadRow) :
      Reached ⟨config, parties, [], [], [], [], [], uploads, [], [], []⟩
  | write {db : KvDatabase} (h : Reached db) (request : KvWrite) : Reached (db.write request).2
  | outside {db : KvDatabase} (h : Reached db) (parties : List KvPartyRow)
      (uploads : List KvUploadRow) : Reached { db with parties, uploads }

theorem Reached.consistent (h : Reached db) : db.Consistent := by
  induction h with
  | empty config parties uploads =>
    refine ⟨keyed_nil, keyed_nil, ?_, ?_, ?_, ?_⟩
    · intro place head hhead
      cases hhead
    · intro place version
      simp [direntVersion]
    · intro c
      simp [IsLiveHead, kvDirent, direntVersion]
    · intro a ha
      cases ha
  | write _ request ih => exact ih.write request
  | outside _ parties uploads ih => exact ih.sameEntries ⟨rfl, rfl, rfl⟩

/-! ## Listing -/

instance (column : KvCurrentRow → Nat) : Std.Total (OrderedBy column) where
  total a b := by
    unfold OrderedBy
    omega

instance (column : KvCurrentRow → Nat) : IsTrans _ (OrderedBy column) where
  trans a b c := by
    unfold OrderedBy
    omega

theorem blobOrder_inj {n : Nat} {a b : FixedBytes n} (h : blobOrder a = blobOrder b) : a = b := by
  refine FixedBytes.ext ?_
  rw [← toBE_ofBE a.bytes, ← toBE_ofBE b.bytes, a.size_eq, b.size_eq]
  exact congrArg (toBE n) h

namespace Consistent

variable {db : KvDatabase}

/-- The rows of a directory are the live heads in it, each once. -/
theorem mem_directoryRows (h : db.Consistent) {parent : FixedBytes 16}
    {row : KvCurrentRow × KvDirentRow} :
    row ∈ db.directoryRows uid parent ↔ db.IsLiveHead row.2 ∧ row.2.uid = uid ∧
      row.2.parent = parent ∧ row.1 = row.2.toCurrent := by
  have hjoin (dirent : KvDirentRow) (hlive : db.IsLiveHead dirent) :
      db.joinDirent dirent.toCurrent = some (dirent.toCurrent, dirent) := by
    have hfind : db.dirents.find? (fun other => other.versionPlace = dirent.versionPlace) =
        some dirent :=
      h.dirents.find?_eq_some.mpr ⟨(kvDirent_eq_some hlive.1).1, rfl⟩
    exact congrArg (Option.map _) hfind
  unfold directoryRows
  rw [List.mem_filterMap]
  constructor
  · rintro ⟨c, hc, hrow⟩
    obtain ⟨hmem, hplace⟩ := List.mem_filter.mp hc
    obtain ⟨dirent, hlive, rfl⟩ := (h.mem_current c).mp hmem
    rw [hjoin dirent hlive] at hrow
    cases hrow
    obtain ⟨huid, hparent⟩ := of_decide_eq_true hplace
    exact ⟨hlive, huid, hparent, rfl⟩
  · obtain ⟨c, dirent⟩ := row
    rintro ⟨hlive, huid, hparent, hcurrent⟩
    obtain rfl : c = dirent.toCurrent := hcurrent
    subst huid hparent
    refine ⟨dirent.toCurrent, List.mem_filter.mpr ⟨?_, decide_eq_true ⟨rfl, rfl⟩⟩,
      hjoin dirent hlive⟩
    exact (h.mem_current _).mpr ⟨dirent, hlive, rfl⟩

theorem pairwise_directoryRows (h : db.Consistent) (uid : List UInt8) (parent : FixedBytes 16) :
    (db.directoryRows uid parent).Pairwise fun a b =>
      blobOrder a.1.nameMac ≠ blobOrder b.1.nameMac := by
  have hcurrent : (db.current.filter fun row => row.uid = uid ∧ row.parent = parent).Pairwise
      fun a b => blobOrder a.nameMac ≠ blobOrder b.nameMac := by
    have hkeyed : db.current.Pairwise fun a b => a.place ≠ b.place :=
      List.pairwise_map.mp h.current
    refine (hkeyed.filter _).imp_of_mem fun {a b} ha hb hne hmac => hne ?_
    obtain ⟨hmemA, hplaceA⟩ := List.mem_filter.mp ha
    obtain ⟨hmemB, hplaceB⟩ := List.mem_filter.mp hb
    obtain ⟨huidA, hparentA⟩ := of_decide_eq_true hplaceA
    obtain ⟨huidB, hparentB⟩ := of_decide_eq_true hplaceB
    have hid := h.names a hmemA b hmemB (huidA.trans huidB.symm) (hparentA.trans hparentB.symm)
      (blobOrder_inj hmac)
    rw [KvCurrentRow.place, KvCurrentRow.place, huidA, huidB, hparentA, hparentB, hid]
  refine List.Pairwise.filterMap _ ?_ hcurrent
  intro a b hne a' ha' b' hb'
  have hfst (c : KvCurrentRow) (c' : KvCurrentRow × KvDirentRow) (hc : db.joinDirent c = some c') :
      c'.1 = c := by
    obtain ⟨dirent, -, rfl⟩ := Option.map_eq_some_iff.mp hc
    rfl
  rw [hfst a a' ha', hfst b b' hb']
  exact hne

/-- Whatever a listing selects by name, it is sorted by different names. -/
theorem sorted_insertionSort (h : db.Consistent) (uid : List UInt8) (parent : FixedBytes 16)
    (p : KvCurrentRow × KvDirentRow → Bool) :
    (((db.directoryRows uid parent).filter p).insertionSort
      (OrderedBy fun row => blobOrder row.nameMac)).Pairwise fun a b =>
        blobOrder a.1.nameMac < blobOrder b.1.nameMac := by
  have hdistinct : (((db.directoryRows uid parent).filter p).insertionSort
      (OrderedBy fun row => blobOrder row.nameMac)).Pairwise fun a b =>
        blobOrder a.1.nameMac ≠ blobOrder b.1.nameMac :=
    ((List.perm_insertionSort _ _).pairwise_iff fun hne => hne.symm).mpr
      ((h.pairwise_directoryRows uid parent).filter p)
  refine ((List.pairwise_insertionSort _ _).and hdistinct).imp fun {a b} hab => ?_
  rcases hab.1 with hlt | ⟨heq, -⟩
  · exact hlt
  · exact absurd heq hab.2

theorem listRows_none (h : db.Consistent) (uid : List UInt8) (parent : FixedBytes 16) :
    (db.listRows uid parent none).Pairwise fun a b =>
      blobOrder a.1.nameMac < blobOrder b.1.nameMac := by
  have hsorted := h.sorted_insertionSort uid parent fun _ => true
  rw [List.filter_true] at hsorted
  exact hsorted

/-- A page from a name on selects from the whole listing. -/
theorem listRows_mac (h : db.Consistent) (uid : List UInt8) (parent : FixedBytes 16)
    (mac : FixedBytes 32) :
    db.listRows uid parent (some (.mac mac)) =
      (db.listRows uid parent none).filter fun row => blobOrder mac < blobOrder row.1.nameMac := by
  refine List.Perm.eq_of_pairwise (fun a b _ _ hab hba => absurd hab (Nat.lt_asymm hba))
    (h.sorted_insertionSort uid parent _) ((h.listRows_none uid parent).filter _) ?_
  refine (List.perm_insertionSort _ _).trans ?_
  exact ((List.perm_insertionSort _ _).symm).filter _

end Consistent

/-- The listing of a directory page by page, each page after the first from the name of the last
    entry before it, up to a page that is shorter than the limit. -/
def kvListAll (db : KvDatabase) (uid : List UInt8) (parent : FixedBytes 16) (limit fuel : Nat) :
    Option (List (KvCurrentRow × KvDirentRow)) :=
  followPages (fun row => .mac row.1.nameMac)
    (fun cursor => (db.kvListPage uid parent cursor limit).toOption) limit fuel none

theorem kvListPage_eq {db : KvDatabase} {parent : FixedBytes 16} {limit : Nat}
    (hlimit : 1 ≤ limit ∧ limit ≤ 4096) : (db.kvListPage uid parent none limit).toOption =
        some ((db.listRows uid parent none).take limit) ∧
      ∀ mac, (db.kvListPage uid parent (some (.mac mac)) limit).toOption =
        some ((db.listRows uid parent (some (.mac mac))).take limit) := by
  have hvalid : ¬ (limit = 0 ∨ limit > 4096) := by omega
  constructor
  · rw [kvListPage, if_neg hvalid]
    rfl
  · intro mac
    rw [kvListPage, if_neg hvalid]
    rfl

theorem Consistent.kvListAll_eq (h : db.Consistent) (uid : List UInt8) (parent : FixedBytes 16)
    {limit fuel : Nat} (hlimit : 1 ≤ limit ∧ limit ≤ 4096)
    (hfuel : (db.directoryRows uid parent).length < fuel) :
    db.kvListAll uid parent limit fuel = some (db.listRows uid parent none) := by
  obtain ⟨hfirst, hnext⟩ := @kvListPage_eq uid db parent limit hlimit
  refine followPages_eq hlimit.1 (h.listRows_none uid parent) hfirst (fun row _ => ?_) ?_
  · rw [hnext, h.listRows_mac]
  · rw [listRows, List.length_insertionSort]
    exact hfuel

/-- In every database that the writes reach: live entries of one directory have different names, the
    current table holds exactly the live heads, the versions of an entry are those from one to its
    head, a batch that fails changes no table of entries, directories or nodes, and the pages of a
    listing hold every live entry of the directory once. -/
theorem Reached.entries_exact {db : KvDatabase} (h : Reached db) :
    (∀ a b, db.IsLiveHead a → db.IsLiveHead b → a.uid = b.uid → a.parent = b.parent →
      a.nameMac = b.nameMac → a = b) ∧
    (Keyed KvCurrentRow.place db.current ∧
      ∀ c, c ∈ db.current ↔ ∃ row, db.IsLiveHead row ∧ c = row.toCurrent) ∧
    (Keyed KvDirentRow.versionPlace db.dirents ∧
      ∀ place version, (∃ row ∈ db.dirents, row.versionPlace = (place, version)) ↔
        ∃ head, db.direntVersion place = some head ∧ 1 ≤ version ∧ version ≤ head) ∧
    (∀ uid precondition callerRole mutations error,
      (db.putKvDirents uid precondition callerRole mutations).1 = .error error →
      ∃ namespaces, db.EntersNamespace uid namespaces ∧
        (db.putKvDirents uid precondition callerRole mutations).2 = { db with namespaces }) ∧
    ∀ uid parent limit fuel, 1 ≤ limit → limit ≤ 4096 →
      (db.directoryRows uid parent).length < fuel →
      ∃ rows, db.kvListAll uid parent limit fuel = some rows ∧ (rows.map (·.2)).Nodup ∧
        ∀ row, row ∈ rows.map (·.2) ↔ db.IsLiveHead row ∧ row.uid = uid ∧ row.parent = parent := by
  have hdb := h.consistent
  refine ⟨?_, ⟨hdb.current, hdb.mem_current⟩, ⟨hdb.dirents, hdb.versions⟩, ?_, ?_⟩
  · intro a b ha hb huid hparent hmac
    have hid : a.id = b.id := hdb.names a.toCurrent ((hdb.mem_current _).mpr ⟨a, ha, rfl⟩)
      b.toCurrent ((hdb.mem_current _).mpr ⟨b, hb, rfl⟩) huid hparent hmac
    have hplace : a.place = b.place := by
      rw [KvDirentRow.place, KvDirentRow.place, huid, hparent, hid]
    have hhead := ha.1
    rw [hplace, hb.1] at hhead
    exact (Option.some.inj hhead).symm
  · intro uid precondition callerRole mutations error herror
    rcases db.putKvDirents_cases uid precondition callerRole mutations with hkept | ⟨-, hok, -⟩
    · exact hkept
    · rw [herror] at hok
      cases hok
  · intro uid parent limit fuel hlow hhigh hfuel
    have hmem (pair : KvCurrentRow × KvDirentRow) :
        pair ∈ db.listRows uid parent none ↔ pair ∈ db.directoryRows uid parent :=
      (List.perm_insertionSort _ _).mem_iff
    refine ⟨_, hdb.kvListAll_eq uid parent ⟨hlow, hhigh⟩ hfuel, ?_, ?_⟩
    · refine List.pairwise_map.mpr
        ((hdb.listRows_none uid parent).imp_of_mem fun {a b} ha hb hlt heq => ?_)
      -- equal entries have equal names
      obtain ⟨-, -, -, hcurrentA⟩ := hdb.mem_directoryRows.mp ((hmem a).mp ha)
      obtain ⟨-, -, -, hcurrentB⟩ := hdb.mem_directoryRows.mp ((hmem b).mp hb)
      rw [hcurrentA, hcurrentB, heq] at hlt
      exact Nat.lt_irrefl _ hlt
    · intro row
      rw [List.mem_map]
      constructor
      · rintro ⟨pair, hpair, rfl⟩
        obtain ⟨hlive, huid, hparent, -⟩ := hdb.mem_directoryRows.mp ((hmem pair).mp hpair)
        exact ⟨hlive, huid, hparent⟩
      · rintro ⟨hlive, huid, hparent⟩
        refine ⟨(row.toCurrent, row), (hmem _).mpr ?_, rfl⟩
        exact hdb.mem_directoryRows.mpr ⟨hlive, huid, hparent, rfl⟩

end

namespace KvSample

def uid : List UInt8 := List.replicate 33 1

def directory (tag : UInt8) : KvDirectoryMutation :=
  ⟨uid, .replicate 16 tag, 1, 3, 0, 1, 0, [tag]⟩

/-- The entry of one directory in another. -/
def entry (parent child : UInt8) : KvDirentMutation :=
  ⟨.replicate 16 parent, .replicate 16 child, 1, 1, .directory (.replicate 16 child),
    .replicate 32 child, 0, [child]⟩

/-- The database of a user who has written nothing. -/
def fresh : KvDatabase :=
  ⟨.standard, [⟨uid, 1, List.replicate 33 7⟩], [], [], [], [], [], [], [], [], []⟩

/-- Two directories, with an entry of the second in the first. -/
def requests : List KvWrite :=
  [.directory (directory 1) none, .directory (directory 2) none,
    .dirents uid none .owner [entry 1 2]]

def written : KvDatabase := requests.foldl (fun db request => (db.write request).2) fresh

theorem fresh_reached : Reached fresh := .empty ..

theorem written_reached : Reached written := by
  refine .write (.write (.write ?_ _) _) _
  exact fresh_reached

/-- A limit above 4096 is refused, and a batch that fails can leave a namespace behind. -/
theorem limit_refused :
    Reached written ∧ (written.kvDirent (uid, .replicate 16 1, .replicate 16 2)).isSome = true ∧
      written.kvList uid (.replicate 16 1) none 4097 = .error (.invalid "KV list limit") ∧
      (fresh.putKvDirents uid none .owner [entry 1 2]).1 = .error .kvConflict ∧
      (fresh.putKvDirents uid none .owner [entry 1 2]).2.namespaces ≠ fresh.namespaces := by
  exact ⟨written_reached, by decide +kernel, rfl, rfl, by decide +kernel⟩

/-- Two more entries in the first directory. -/
def filled : KvDatabase :=
  [.directory (directory 3) none, .directory (directory 4) none,
    .dirents uid none .owner [entry 1 4, entry 1 3]].foldl
      (fun db request => (db.write request).2) written

/-- The three entries are listed with pages of two rows. -/
theorem filled_listed :
    ∃ rows, filled.kvListAll uid (.replicate 16 1) 2 4 = some rows ∧ (rows.map (·.2)).Nodup ∧
      ∀ child ∈ [2, 3, 4], (entry 1 child).row uid ∈ rows.map (·.2) := by
  have hreached : Reached filled := .write (.write (.write written_reached _) _) _
  obtain ⟨-, -, -, -, hlist⟩ := hreached.entries_exact
  obtain ⟨rows, hrows, hnodup, hmem⟩ :=
    hlist uid (.replicate 16 1) 2 4 (by decide) (by decide) (by decide +kernel)
  have hstored : ∀ child ∈ [2, 3, 4],
      filled.kvDirent ((entry 1 child).row uid).place = some ((entry 1 child).row uid) := by
    decide +kernel
  exact ⟨rows, hrows, hnodup, fun child hchild =>
    (hmem _).mpr ⟨⟨hstored child hchild, rfl⟩, rfl, rfl⟩⟩

end KvSample

end KvDatabase

end Foks.ServerDb
