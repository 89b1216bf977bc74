/-
  The version vector of a namespace (`foks-server-db`, `kv_version_vector` in `kv.rs`), and what a
  check against it says later.

  The vector cites the root, the directories that live entries lead to from it, and those entries.
  What it cites is stored, because a directory is never removed and a root or an entry names only
  directories that are there (`Linked`). Every write leaves the versions as they are or moves them
  up (`Advances`). So a later check finds everything that is cited, and reports what changed.
-/
import Foks.Lib.Walk
import Foks.ServerDb.KvInvariant

namespace Foks.ServerDb

open Foks.Lib Foks.Proto Foks.Verify

variable {id : FixedBytes 16} {root : KvRootRow}

namespace KvDatabase

/-! ## The vector -/

section

variable (db : KvDatabase)

/-- The entries of a directory that are not removed, by their identifiers. -/
def liveEntries (uid : List UInt8) (parent : FixedBytes 16) : List KvDirentRow :=
  (((db.direntHeads.filter fun head => head.uid = uid ∧ head.parent = parent).filterMap
    fun head => db.kvDirent head.place).filter (·.isLive)).insertionSort
      fun a b => blobOrder a.id ≤ blobOrder b.id

/-- What the walk keeps of a directory, and the directories in it. -/
def visitDirectory (uid : List UInt8) (id : FixedBytes 16) :
    Except Error (KvDirectoryVersion × List (FixedBytes 16)) := do
  let version ← okOr .noRows (db.directoryVersion uid id)
  let rows := db.liveEntries uid id
  .ok (⟨id, version, rows.map fun row => ⟨row.id, row.version⟩⟩,
    (rows.filter (·.node.kind = 1)).map (·.node.object))

/-- A walk that has visited as many directories as there are heads finds no row for another one. -/
def kvVersionVector (uid : List UInt8) : Except Error (Option KvPathVersionVector) :=
  match db.kvRoot uid with
  | none => .ok none
  | some root => do
    let found ← walk (db.visitDirectory uid) .noRows db.directoryHeads.length [root.directoryId] []
    .ok (some ⟨root.version,
      (found.insertionSort fun a b => blobOrder a.1 ≤ blobOrder b.1).map (·.2)⟩)

variable {db db' : KvDatabase} {uid : List UInt8}

/-! ## Versions only grow -/

theorem Since.refl (version : UInt64) : Since version (some version) :=
  ⟨version, rfl, UInt64.le_refl version⟩

/-- What a write does to the versions. -/
structure Advances (db db' : KvDatabase) : Prop where
  directories : ∀ uid id version, db.directoryVersion uid id = some version →
    db'.directoryVersion uid id = some version
  entries : ∀ place version, db.direntVersion place = some version →
    Since version (db'.direntVersion place)
  roots : ∀ uid root, db.kvRoot uid = some root →
    ∃ root', db'.kvRoot uid = some root' ∧ root.version ≤ root'.version

theorem Advances.of_same (hdirectories : db'.directoryHeads = db.directoryHeads)
    (hentries : db'.direntHeads = db.direntHeads) (hroots : db'.roots = db.roots) :
    Advances db db' := by
  refine ⟨fun uid id version h => ?_, fun place version h => ?_, fun uid root h => ?_⟩
  · rw [directoryVersion, hdirectories]
    exact h
  · rw [direntVersion, hentries]
    exact ⟨version, h, UInt64.le_refl _⟩
  · rw [kvRoot, hroots]
    exact ⟨root, h, UInt64.le_refl _⟩

theorem Advances.trans {mid : KvDatabase} (h : Advances db mid) (h' : Advances mid db') :
    Advances db db' := by
  refine ⟨fun uid id version hv => h'.directories _ _ _ (h.directories _ _ _ hv),
    fun place version hv => ?_, fun uid root hroot => ?_⟩
  · obtain ⟨now, hnow, hle⟩ := h.entries place version hv
    obtain ⟨later, hlater, hle'⟩ := h'.entries place now hnow
    exact ⟨later, hlater, UInt64.le_trans hle hle'⟩
  · obtain ⟨mid, hmid, hle⟩ := h.roots uid root hroot
    obtain ⟨later, hlater, hle'⟩ := h'.roots uid mid hmid
    exact ⟨later, hlater, UInt64.le_trans hle hle'⟩

/-- The mutations of a batch have the next versions of their entries. -/
theorem BatchDone.entries {mutations : List KvDirentMutation}
    (h : BatchDone uid mutations db db') (hdb : db.Consistent)
    {place : KvPlace} {version : UInt64} (hversion : db.direntVersion place = some version) :
    Since version (db'.direntVersion place) := by
  obtain ⟨row, hrow, rfl⟩ := hdb.kvDirent_of_version hversion
  by_cases hplace : ∃ mutation ∈ mutations, (mutation.row uid).place = place
  · obtain ⟨mutation, hmem, rfl⟩ := hplace
    have hnext := h.next mutation hmem
    rw [hrow] at hnext
    have hsum := checkedAddU64_eq_some.mp (okOr_eq_ok.mp hnext)
    refine ⟨mutation.version, (kvDirent_eq_some (h.placed mutation hmem)).2.2, ?_⟩
    rw [UInt64.le_iff_toNat_le]
    omega
  · have hsame := h.others place fun mutation hmem heq => hplace ⟨mutation, hmem, heq⟩
    rw [hrow] at hsame
    exact ⟨row.version, (kvDirent_eq_some hsame).2.2, UInt64.le_refl _⟩

theorem rootFollows_version {existing : Option KvRootRow} {mutation : KvRootMutation}
    (h : rootFollows existing mutation = .ok true) :
    1 ≤ mutation.version ∧ ∀ root ∈ existing, root.version ≤ mutation.version := by
  cases existing with
  | none =>
    rcases ite_eq_ok h with ⟨hone, -⟩ | ⟨-, h⟩
    · exact ⟨hone ▸ UInt64.le_refl _, by simp⟩
    · cases h
  | some root =>
    rcases ite_eq_ok h with ⟨-, h⟩ | ⟨-, h⟩
    · cases h
    rcases ite_eq_ok h with ⟨hnext, -⟩ | ⟨-, h⟩
    · have hone : (1 : UInt64).toNat = 1 := rfl
      simp only [Option.mem_some, forall_eq', UInt64.le_iff_toNat_le, hone]
      omega
    · cases h

theorem kvRoot_upsert (h : db'.roots = upsertRow KvRootRow.uid db.roots root) (uid : List UInt8) :
    db'.kvRoot uid = if root.uid = uid then some root else db.kvRoot uid := by
  rw [kvRoot, h]
  exact find?_upsertRow uid

theorem directoryVersion_append {head : KvDirectoryHead}
    (h : db'.directoryHeads = db.directoryHeads ++ [head]) {version : UInt64}
    (hversion : db.directoryVersion uid id = some version) :
    db'.directoryVersion uid id = some version := by
  obtain ⟨row, hrow, rfl⟩ := Option.map_eq_some_iff.mp hversion
  rw [directoryVersion, h, List.find?_append, hrow]
  rfl

theorem write_advances (hdb : db.Consistent) (request : KvWrite) :
    Advances db (db.write request).2 := by
  cases request with
  | directory mutation precondition =>
    obtain ⟨_, ⟨heq, -⟩ | ⟨_, -, -, heq⟩⟩ := db.putKvDirectory_cases mutation precondition
    · rw [write, heq]
      exact .of_same rfl rfl rfl
    · rw [write, heq]
      refine ⟨fun _ _ _ hversion => directoryVersion_append rfl hversion, fun _ version h => ?_,
        fun _ root h => ⟨root, h, UInt64.le_refl _⟩⟩
      exact ⟨version, h, UInt64.le_refl _⟩
  | node mutation =>
    obtain ⟨_, _, heq⟩ := db.putKvNode_cases mutation
    rw [write, heq]
    exact .of_same rfl rfl rfl
  | root mutation =>
    obtain ⟨_, heq | ⟨root, hfollows, huid, hversion, -, heq⟩⟩ := db.putKvRoot_cases mutation
    · rw [write, heq]
      exact .of_same rfl rfl rfl
    · rw [write, heq]
      refine ⟨fun _ _ _ => id, fun _ version h => ⟨version, h, UInt64.le_refl _⟩,
        fun uid old hold => ?_⟩
      rw [kvRoot_upsert rfl]
      split
      · rename_i hsame
        rw [← huid, hsame, hold] at hfollows
        exact ⟨root, rfl, hversion ▸ (rootFollows_version hfollows).2 old rfl⟩
      · exact ⟨old, hold, UInt64.le_refl _⟩
  | dirents uid precondition callerRole mutations =>
    rcases db.putKvDirents_cases uid precondition callerRole mutations with
      ⟨_, -, heq⟩ | ⟨-, -, hdone⟩
    · rw [write, heq]
      exact .of_same rfl rfl rfl
    · refine ⟨fun _ _ _ h => ?_, fun _ _ h => hdone.entries hdb h, fun _ root h => ?_⟩
      · rw [write, directoryVersion, hdone.directoryHeads]
        exact h
      · rw [write, kvRoot, hdone.roots]
        exact ⟨root, h, UInt64.le_refl _⟩

/-! ## What is named is there -/

/-- A directory with a head. -/
def HasDirectory (uid : List UInt8) (id : FixedBytes 16) : Prop :=
  ∃ version, db.directoryVersion uid id = some version

structure Linked (db : KvDatabase) : Prop where
  directories : ∀ row ∈ db.directories, db.HasDirectory row.uid row.id
  entries : ∀ row ∈ db.dirents, row.node.kind = 1 → db.HasDirectory row.uid row.node.object
  roots : ∀ uid root, db.kvRoot uid = some root →
    1 ≤ root.version ∧ db.HasDirectory uid root.directoryId

theorem HasDirectory.advance {id : FixedBytes 16} (h : db.HasDirectory uid id)
    (hadvances : Advances db db') : db'.HasDirectory uid id := by
  obtain ⟨version, hversion⟩ := h
  exact ⟨version, hadvances.directories _ _ _ hversion⟩

/-- The directories that the rows of a database name are still there after a write that adds no
    row. -/
theorem Linked.of_same (h : db.Linked) (hadvances : Advances db db')
    (hdirectories : db'.directories = db.directories) (hdirents : db'.dirents = db.dirents)
    (hroots : db'.roots = db.roots) : db'.Linked where
  directories row hrow := (h.directories row (hdirectories ▸ hrow)).advance hadvances
  entries row hrow hkind := (h.entries row (hdirents ▸ hrow) hkind).advance hadvances
  roots uid root hroot := by
    rw [kvRoot, hroots] at hroot
    obtain ⟨hone, hthere⟩ := h.roots uid root hroot
    exact ⟨hone, hthere.advance hadvances⟩

theorem hasDirectory_of_reference {node : KvNodeId} (hkind : node.kind = 1)
    (h : db.nodeReferenceExists uid node = true) : db.HasDirectory uid node.object := by
  simp only [nodeReferenceExists, hkind] at h
  exact Option.isSome_iff_exists.mp h

theorem Linked.write (h : db.Linked) (hdb : db.Consistent) (request : KvWrite) :
    (db.write request).2.Linked := by
  have hadvances := write_advances hdb request
  cases request with
  | directory mutation precondition =>
    obtain ⟨_, ⟨heq, -⟩ | ⟨new, huid, hid, heq⟩⟩ := db.putKvDirectory_cases mutation precondition
    · rw [KvDatabase.write, heq] at hadvances ⊢
      exact h.of_same hadvances rfl rfl rfl
    · rw [KvDatabase.write, heq] at hadvances ⊢
      refine ⟨fun row hrow => ?_,
        fun row hrow hkind => (h.entries row hrow hkind).advance hadvances,
        fun uid root hroot => ?_⟩
      · rcases List.mem_append.mp hrow with hrow | hrow
        · exact (h.directories row hrow).advance hadvances
        · rw [List.mem_singleton.mp hrow, huid, hid]
          refine Option.isSome_iff_exists.mp ?_
          simp [directoryVersion]
      · obtain ⟨hone, hthere⟩ := h.roots uid root hroot
        exact ⟨hone, hthere.advance hadvances⟩
  | node mutation =>
    obtain ⟨_, _, heq⟩ := db.putKvNode_cases mutation
    rw [KvDatabase.write, heq] at hadvances ⊢
    exact h.of_same hadvances rfl rfl rfl
  | root mutation =>
    obtain ⟨_, heq | ⟨root, hfollows, -, hversion, hexists, heq⟩⟩ := db.putKvRoot_cases mutation
    · rw [KvDatabase.write, heq] at hadvances ⊢
      exact h.of_same hadvances rfl rfl rfl
    · rw [KvDatabase.write, heq] at hadvances ⊢
      refine ⟨h.directories, h.entries, fun uid found hfound => ?_⟩
      rw [kvRoot_upsert rfl] at hfound
      split at hfound
      · rename_i hsame
        cases hfound
        obtain ⟨row, hrow, hplace⟩ := List.any_eq_true.mp hexists
        obtain ⟨hplace, -⟩ := of_decide_eq_true hplace
        obtain ⟨huid, hid, -⟩ : row.uid = root.uid ∧ row.id = root.directoryId ∧ _ := by
          simpa [KvDirectoryRow.place] using hplace
        have hthere := h.directories row hrow
        rw [huid, hid, hsame] at hthere
        exact ⟨hversion ▸ (rootFollows_version hfollows).1, hthere⟩
      · exact h.roots uid found hfound
  | dirents uid precondition callerRole mutations =>
    rcases db.putKvDirents_cases uid precondition callerRole mutations with
      ⟨_, -, heq⟩ | ⟨-, -, hdone⟩
    · rw [KvDatabase.write, heq] at hadvances ⊢
      exact h.of_same hadvances rfl rfl rfl
    · refine ⟨fun row hrow => ?_, fun row hrow hkind => ?_, fun uid root hroot => ?_⟩
      · rw [KvDatabase.write, hdone.directories] at hrow
        exact (h.directories row hrow).advance hadvances
      · rw [KvDatabase.write, hdone.dirents] at hrow
        rcases List.mem_append.mp hrow with hrow | hrow
        · exact (h.entries row hrow hkind).advance hadvances
        · obtain ⟨mutation, hmem, rfl⟩ := List.mem_map.mp hrow
          exact (hasDirectory_of_reference hkind (hdone.nodes mutation hmem)).advance hadvances
      · rw [KvDatabase.write, kvRoot, hdone.roots] at hroot
        obtain ⟨hone, hthere⟩ := h.roots uid root hroot
        exact ⟨hone, hthere.advance hadvances⟩

theorem Reached.linked (h : Reached db) : db.Linked := by
  induction h with
  | empty config parties uploads =>
    exact ⟨nofun, nofun, nofun⟩
  | write hdb request ih => exact ih.write hdb.consistent request
  | outside _ parties uploads ih => exact ih.of_same (.of_same rfl rfl rfl) rfl rfl rfl

/-! ## What the vector cites -/

theorem mem_liveEntries {parent : FixedBytes 16} {row : KvDirentRow}
    (h : row ∈ db.liveEntries uid parent) : row ∈ db.dirents ∧ row.uid = uid ∧
      db.direntVersion (uid, parent, row.id) = some row.version := by
  obtain ⟨hrow, -⟩ := List.mem_filter.mp ((List.perm_insertionSort _ _).mem_iff.mp h)
  obtain ⟨head, hhead, hfound⟩ := List.mem_filterMap.mp hrow
  obtain ⟨rfl, rfl⟩ := of_decide_eq_true (List.mem_filter.mp hhead).2
  obtain ⟨hmem, hplace, hversion⟩ := kvDirent_eq_some hfound
  obtain ⟨huid, hparent, hid⟩ :
      row.uid = head.uid ∧ row.parent = head.parent ∧ row.id = head.id := by
    simpa [KvDirentRow.place, KvDirentHead.place] using hplace
  exact ⟨hmem, huid, hid ▸ hversion⟩

theorem visitDirectory_eq_ok {visited : KvDirectoryVersion × List (FixedBytes 16)}
    (h : db.visitDirectory uid id = .ok visited) : db.CitedNow uid [visited.1] := by
  obtain ⟨version, hversion, h⟩ := bind_eq_ok.mp h
  cases h
  refine List.forall_mem_singleton.mpr ⟨okOr_eq_ok.mp hversion, fun entry hentry => ?_⟩
  obtain ⟨row, hrow, rfl⟩ := List.mem_map.mp hentry
  exact (mem_liveEntries hrow).2.2

/-- The directories of a namespace. -/
def directoriesOf (uid : List UInt8) : List (FixedBytes 16) :=
  (db.directoryHeads.filter fun head => head.uid = uid).map (·.id)

theorem mem_directoriesOf : id ∈ db.directoriesOf uid ↔ db.HasDirectory uid id := by
  unfold HasDirectory
  rw [← Option.isSome_iff_exists, directoryVersion, Option.isSome_map, List.find?_isSome]
  simp [directoriesOf, and_assoc]

/-- In a database where what is named is there the walk ends, and the vector cites the versions that
    are stored. -/
theorem Linked.kvVersionVector_cites (h : db.Linked) (hroot : db.kvRoot uid = some root) :
    ∃ versions, db.kvVersionVector uid = .ok (some versions) ∧
      versions.rootVersion = root.version ∧ db.CitedNow uid versions.directories := by
  have hvisit : ∀ id ∈ db.directoriesOf uid, ∃ visited, db.visitDirectory uid id = .ok visited ∧
      visited.2 ⊆ db.directoriesOf uid := by
    intro id hid
    obtain ⟨version, hversion⟩ := mem_directoriesOf.mp hid
    rw [visitDirectory, hversion]
    refine ⟨_, rfl, fun child hchild => mem_directoriesOf.mpr ?_⟩
    obtain ⟨row, hrow, rfl⟩ := List.mem_map.mp hchild
    obtain ⟨hrow, hkind⟩ := List.mem_filter.mp hrow
    obtain ⟨hmem, rfl, -⟩ := mem_liveEntries hrow
    exact h.entries row hmem (of_decide_eq_true hkind)
  have hstart : [root.directoryId] ⊆ db.directoriesOf uid := by
    simpa using mem_directoriesOf.mpr (h.roots uid root hroot).2
  have hroom : (db.directoriesOf uid).length ≤ 0 + db.directoryHeads.length := by
    rw [Nat.zero_add, directoriesOf, List.length_map]
    exact List.length_filter_le _ _
  obtain ⟨found, hfound, hkept⟩ :=
    @walk_ok _ _ _ _ (db.visitDirectory uid) .noRows _ _ [] _ hvisit hstart
    List.nodup_nil (List.nil_subset _) hroom
  refine ⟨⟨root.version, (found.insertionSort fun a b => blobOrder a.1 ≤ blobOrder b.1).map (·.2)⟩,
    ?_, rfl, fun directory hdirectory => ?_⟩
  · rw [kvVersionVector, hroot]
    exact bind_eq_ok.mpr ⟨found, hfound, rfl⟩
  · obtain ⟨x, hx, rfl⟩ := List.mem_map.mp hdirectory
    rcases hkept x ((List.perm_insertionSort _ _).mem_iff.mp hx) with hx | ⟨visited, hvisited, heq⟩
    · cases hx
    · rw [← heq]
      exact visitDirectory_eq_ok hvisited _ (List.mem_singleton_self _)

/-! ## A check against the vector -/

/-- The database after a number of writes, accepted or refused. -/
def afterWrites (requests : List KvWrite) : KvDatabase :=
  requests.foldl (fun db request => (db.write request).2) db

end

theorem afterWrites_advances (hdb : db.Consistent) (requests : List KvWrite) :
    Advances db (db.afterWrites requests) := by
  induction requests generalizing db with
  | nil => exact .of_same rfl rfl rfl
  | cons request requests ih => exact (write_advances hdb request).trans (ih (hdb.write request))

/-- The vector of a database with a root cites the versions that are stored. A check against it
    after any further writes finds everything that is cited; it says that the vector is current
    exactly if the root and everything that is cited have the same versions as before, and otherwise
    it gives the root and exactly what changed, with the versions of now. -/
theorem Reached.kvVersionCheck_exact (h : Reached db) {root : KvRootRow}
    (hroot : db.kvRoot uid = some root) (requests : List KvWrite) :
    let later := db.afterWrites requests
    ∃ versions now, db.kvVersionVector uid = .ok (some versions) ∧
      versions.rootVersion = root.version ∧ db.CitedNow uid versions.directories ∧
      later.kvRoot uid = some now ∧
      later.kvVersionCheck uid versions ≠ .future ∧ later.kvVersionCheck uid versions ≠ .missing ∧
      (later.kvVersionCheck uid versions = .current ↔ now.version = root.version ∧
        ∀ directory ∈ versions.directories,
          later.directoryVersion uid directory.id = db.directoryVersion uid directory.id ∧
          ∀ entry ∈ directory.entries, later.direntVersion (uid, directory.id, entry.id) =
            db.direntVersion (uid, directory.id, entry.id)) ∧
      (later.kvVersionCheck uid versions ≠ .current → later.kvVersionCheck uid versions =
        .stale ⟨now.version, later.changedDirectories uid versions.directories⟩) := by
  intro later
  obtain ⟨versions, hvector, hversion, hcited⟩ := h.linked.kvVersionVector_cites hroot
  have hadvances : Advances db later := afterWrites_advances h.consistent requests
  obtain ⟨now, hnow, hle⟩ := hadvances.roots uid root hroot
  have hsince : later.CitedSince uid versions.directories := by
    intro directory hdirectory
    obtain ⟨hstored, hentries⟩ := hcited directory hdirectory
    refine ⟨?_, fun entry hentry => hadvances.entries _ _ (hentries entry hentry)⟩
    rw [hadvances.directories _ _ _ hstored]
    exact .refl _
  have hcheck : later.kvVersionCheck uid versions =
      if now.version = root.version ∧ later.changedDirectories uid versions.directories = [] then
        .current
      else .stale ⟨now.version, later.changedDirectories uid versions.directories⟩ := by
    have hpositive : root.version ≠ 0 := by
      intro hzero
      have hone := (h.linked.roots uid root hroot).1
      rw [hzero] at hone
      cases hone
    unfold kvVersionCheck
    simp only [hnow, hversion, if_neg (UInt64.not_lt.mpr hle),
      staleDirectories_eq_ok.mpr ⟨hsince, rfl⟩, hpositive, false_or]
  have hsame : later.changedDirectories uid versions.directories = [] ↔
      ∀ directory ∈ versions.directories,
        later.directoryVersion uid directory.id = db.directoryVersion uid directory.id ∧
        ∀ entry ∈ directory.entries, later.direntVersion (uid, directory.id, entry.id) =
          db.direntVersion (uid, directory.id, entry.id) := by
    rw [changedDirectories_eq_nil hsince]
    refine forall₂_congr fun directory hdirectory => ?_
    obtain ⟨hstored, hentries⟩ := hcited directory hdirectory
    rw [hstored]
    exact and_congr_right' (forall₂_congr fun entry hentry => by rw [hentries entry hentry])
  refine ⟨versions, now, hvector, hversion, hcited, hnow, ?_⟩
  rw [hcheck, ← hsame]
  split
  · rename_i hcurrent
    exact ⟨nofun, nofun, iff_of_true rfl hcurrent, fun hne => absurd rfl hne⟩
  · rename_i hchanged
    exact ⟨nofun, nofun, iff_of_false nofun hchanged, fun _ => rfl⟩

end KvDatabase

namespace KvDatabase.KvSample

/-- The first directory is the root, and the second an entry of it. -/
def rooted : KvDatabase := written.afterWrites [.root ⟨uid, 1, .replicate 16 1, 1, 3, 1, [9]⟩]

/-- The entry of the second directory is removed. -/
def removal : KvWrite :=
  .dirents uid none .owner [{ entry 1 2 with version := 2, node := ⟨0, .replicate 16 0⟩ }]

/-- After the removal a check against the vector of before reports the entry and its directory. -/
theorem removal_reported :
    ∃ versions, rooted.kvVersionVector uid = .ok (some versions) ∧
      versions = ⟨1, [⟨.replicate 16 1, 1, [⟨.replicate 16 2, 1⟩]⟩, ⟨.replicate 16 2, 1, []⟩]⟩ ∧
      (rooted.afterWrites [removal]).kvVersionCheck uid versions =
        .stale ⟨1, [⟨.replicate 16 1, 1, [⟨.replicate 16 2, 2⟩]⟩]⟩ := by
  have hrooted : Reached rooted := .write written_reached _
  have hroot : rooted.kvRoot uid = some ⟨uid, 1, .replicate 16 1, 1, [9]⟩ := by decide +kernel
  have hread : rooted.kvVersionVector uid = .ok (some
      ⟨1, [⟨.replicate 16 1, 1, [⟨.replicate 16 2, 1⟩]⟩, ⟨.replicate 16 2, 1, []⟩]⟩) := by
    decide +kernel
  obtain ⟨versions, now, hvector, -, -, hnow, -, -, -, hstale⟩ :=
    hrooted.kvVersionCheck_exact hroot [removal]
  obtain rfl := Option.some.inj (Except.ok.inj (hvector.symm.trans hread))
  have hkept : (rooted.afterWrites [removal]).kvRoot uid =
      some ⟨uid, 1, .replicate 16 1, 1, [9]⟩ := by decide +kernel
  obtain rfl := Option.some.inj (hnow.symm.trans hkept)
  refine ⟨_, hvector, rfl, (hstale (by decide +kernel)).trans ?_⟩
  decide +kernel

end KvDatabase.KvSample

end Foks.ServerDb
