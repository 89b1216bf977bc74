/-
  Sessions that write one KV namespace at the same time.

  Each session has read a part of the namespace, directory by directory and entry by entry, while
  the others were writing; what it read may be out of date. It plans on that (`Client.KvWrite`) and
  submits with the versions it has seen. The server compares these only, so entries that were added
  since do not stop a write (`Server.Kv`).

  A directory lies in one directory at most and none contains itself (`directories_form_forest`).
  A move is looked at by one session in its own tree, but a cycle would need a way from the moved
  directory to the destination. The destination was found from the root through entries that are
  all cited, so they are current; as no directory lies in two, every way to the destination is part
  of that one, and the mover has seen it (`reaches_on_path`).
-/
import Foks.Client.KvWrite
import Foks.Server.Kv

namespace Foks.Kv

open Foks.Lib Foks.Proto Foks.Client Foks.ServerDb Foks.Server
open Relation (ReflTransGen)

/-! ## The system -/

/-- What a session has read, and the directory it has made and not yet entered anywhere. -/
structure Session where
  tree : KvTree
  made : Option (FixedBytes 16)

structure System where
  db : KvDatabase
  sessions : Nat → Session

/-- The system after a session has changed. -/
def System.withSession (s : System) (db : KvDatabase) (who : Nat) (session : Session) : System :=
  ⟨db, Function.update s.sessions who session⟩

/-- A `put` of a session: the entries it planned, under the versions it has read. -/
def System.put (s : System) (uid : List UInt8) (who : Nat) (maximumRole : Role) (now : UInt64)
    (dirents : List KvDirent) : Except KvStatus Unit × KvDatabase :=
  kvPut s.db uid (some (kvVersionVectorFromTree (s.sessions who).tree)) maximumRole now
    (dirents.map (·.exact))

/-- The server's answer about a directory. -/
def Answers (db : KvDatabase) (uid : List UInt8) (id : FixedBytes 16) (pair : KvDirectoryPair) :
    Prop :=
  ∃ row directory, db.kvDirectory uid id = some row ∧
    KvDirectory.decode row.exact = .ok directory ∧ pair = ⟨directory, none⟩

/-- An entry that the server lists in a directory, as the client projects it. -/
def Lists (db : KvDatabase) (uid : List UInt8) (parent : FixedBytes 16)
    (entry : KvProjectedEntry) : Prop :=
  ∃ row dirent, db.IsLiveHead row ∧ row.uid = uid ∧ row.parent = parent ∧
    KvDirent.decode row.exact = .ok dirent ∧ dirent.bindListParent parent = .ok entry.dirent

inductive Step (uid : List UInt8) : System → System → Prop
  /-- A session reads anew. -/
  | restart {s : System} (who : Nat) :
      Step uid s (s.withSession s.db who { s.sessions who with tree := [] })
  | readRoot {s : System} {who : Nat} {root : KvRootRow} {pair : KvDirectoryPair}
      (hroot : s.db.kvRoot uid = some root) (hpair : Answers s.db uid root.directoryId pair) :
      Step uid s (s.withSession s.db who { s.sessions who with
        tree := [⟨root.version, root.directoryId, root.directoryId, pair, []⟩] })
  | readDirectory {s : System} {who : Nat} {first projection : KvDirectoryProjection}
      {rest : KvTree} {entry : KvProjectedEntry} {id : FixedBytes 16} {pair : KvDirectoryPair}
      (htree : (s.sessions who).tree = first :: rest) (hprojection : projection ∈ first :: rest)
      (hentry : entry ∈ projection.entries) (hid : entry.dirent.value = .directory id)
      (hnew : ∀ other ∈ first :: rest, other.directoryId ≠ id) (hpair : Answers s.db uid id pair) :
      Step uid s (s.withSession s.db who { s.sessions who with
        tree := (first :: rest) ++ [⟨first.rootVersion, first.rootDirectoryId, id, pair, []⟩] })
  | readEntry {s : System} {who : Nat} {before after : KvTree} {projection : KvDirectoryProjection}
      {entry : KvProjectedEntry} (htree : (s.sessions who).tree = before ++ projection :: after)
      (hentry : Lists s.db uid projection.directoryId entry) :
      Step uid s (s.withSession s.db who { s.sessions who with
        tree := before ++ { projection with entries := projection.entries ++ [entry] } :: after })
  /-- The first half of `mkdir`. If the answer is lost the session gives up. -/
  | makeDirectory {s : System} {who : Nat} {parent : FixedBytes 16} {name : List UInt8}
      {options : KvWriteOptions} {directory : KvDirectory} {exact : List UInt8}
      {made : Option (FixedBytes 16)}
      (hplan : planDirectory (s.sessions who).tree parent name options = .ok ())
      (hversion : directory.version = 1) (hstatus : directory.status = .active)
      (hexact : directory.encode = .ok exact)
      (hfresh : s.db.directoryVersion uid directory.id = none)
      (hmade : made = none ∨ made = some directory.id ∧
        (kvMkdir s.db uid (some (kvVersionVectorFromTree (s.sessions who).tree)) exact).1 =
          .ok ()) :
      Step uid s (s.withSession
        (kvMkdir s.db uid (some (kvVersionVectorFromTree (s.sessions who).tree)) exact).2 who
        ⟨(s.sessions who).tree, made⟩)
  /-- The second half of `mkdir`. It is submitted again only if the server refused it. -/
  | linkDirectory {s : System} {who : Nat} {keys : KvKeys} {draws : KvDraws}
      {parent : FixedBytes 16} {name : List UInt8} {options : KvWriteOptions}
      {id : FixedBytes 16} {dirents : List KvDirent} {maximumRole : Role} {now : UInt64}
      {made : Option (FixedBytes 16)} (hid : (s.sessions who).made = some id)
      (hplan : linkUploadedNode keys draws (s.sessions who).tree parent name (.directory id) options
        none = .ok dirents)
      (hmade : made = none ∨ made = some id ∧ (s.put uid who maximumRole now dirents).1 ≠ .ok ()) :
      Step uid s (s.withSession (s.put uid who maximumRole now dirents).2 who
        ⟨(s.sessions who).tree, made⟩)
  /-- Files and symbolic links: the node first, then its entry. -/
  | putNode {s : System} (mutation : KvNodeMutation) :
      Step uid s { s with db := (s.db.putKvNode mutation).2 }
  | linkNode {s : System} {who : Nat} {keys : KvKeys} {draws : KvDraws} {parent : FixedBytes 16}
      {name : List UInt8} {node : KvNodeId} {options : KvWriteOptions}
      {expectedDirentId : Option (FixedBytes 16)} {dirents : List KvDirent} {maximumRole : Role}
      {now : UInt64} (hnode : node.isDirectory = false)
      (hplan : linkUploadedNode keys draws (s.sessions who).tree parent name node options
        expectedDirentId = .ok dirents) :
      Step uid s { s with db := (s.put uid who maximumRole now dirents).2 }
  | unlink {s : System} {who : Nat} {keys : KvKeys} {draws : KvDraws} {parent : FixedBytes 16}
      {name : List UInt8} {selectedId : FixedBytes 16} {expectedVersion : Option UInt64}
      {writeRole : Role} {dirents : List KvDirent} {maximumRole : Role} {now : UInt64}
      (hplan : unlinkSelected keys draws (s.sessions who).tree parent name selectedId
        expectedVersion writeRole = .ok dirents) :
      Step uid s { s with db := (s.put uid who maximumRole now dirents).2 }
  | move {s : System} {who : Nat} {keys : KvKeys} {draws : KvDraws} {sourceParent : FixedBytes 16}
      {sourceName : List UInt8} {sourceId : FixedBytes 16} {sourceVersion : Option UInt64}
      {destinationParent : FixedBytes 16} {destinationName : List UInt8}
      {options : KvWriteOptions} {dirents : List KvDirent} {maximumRole : Role} {now : UInt64}
      (hplan : moveEntrySelected keys draws (s.sessions who).tree sourceParent sourceName sourceId
        sourceVersion destinationParent destinationName options = .ok dirents) :
      Step uid s { s with db := (s.put uid who maximumRole now dirents).2 }
  /-- Parties and uploads come and go. -/
  | outside {s : System} (parties : List KvPartyRow) (uploads : List KvUploadRow) :
      Step uid s { s with db := { s.db with parties, uploads } }

/-- A namespace with a root and nothing in it, and sessions that have done nothing. -/
structure Start (uid : List UInt8) (s : System) : Prop where
  reached : s.db.Reached
  root : ∃ root, s.db.kvRoot uid = some root ∧
    (s.db.directoryVersion uid root.directoryId).isSome = true
  empty : ∀ row ∈ s.db.dirents, row.uid ≠ uid
  sessions : ∀ who, s.sessions who = ⟨[], none⟩

/-- An entry that is there now puts the second directory into the first. -/
def Contains (db : KvDatabase) (uid : List UInt8) (a b : FixedBytes 16) : Prop :=
  ∃ row, db.IsLiveHead row ∧ row.uid = uid ∧ row.parent = a ∧ row.node = .directory b

/-! ## The invariant -/

/-- What holds of the directories of a namespace. -/
structure Forest (db : KvDatabase) (uid : List UInt8) (root : FixedBytes 16) : Prop where
  consistent : db.Consistent
  root_row : ∃ row, db.kvRoot uid = some row ∧ row.directoryId = root
  root_exists : (db.directoryVersion uid root).isSome = true
  decodes : ∀ row ∈ db.dirents, row.uid = uid → ∃ dirent, KvDirent.decode row.exact = .ok dirent ∧
    dirent.parent = row.parent ∧ dirent.id = row.id ∧ dirent.version = row.version ∧
    dirent.value = row.node
  unique : ∀ a b, db.IsLiveHead a → db.IsLiveHead b → a.uid = uid → b.uid = uid →
    a.node.isDirectory = true → a.node = b.node → a = b
  root_free : ∀ a, ¬ Contains db uid a root
  acyclic : Acyclic (Contains db uid)
  /-- Whatever has an entry was once entered itself. -/
  parents : ∀ row ∈ db.dirents, row.uid = uid → row.parent = root ∨
    ∃ above ∈ db.dirents, above.uid = uid ∧ above.node = .directory row.parent
  targets : ∀ row ∈ db.dirents, row.uid = uid → ∀ id, row.node = .directory id →
    (db.directoryVersion uid id).isSome = true

/-- What a session has read was stored once, and it came to every directory from the root. -/
structure WasRead (db : KvDatabase) (uid : List UInt8) (root : FixedBytes 16) (tree : KvTree) :
    Prop where
  distinct : DistinctDirectories tree
  reached : ∀ projection ∈ tree, ReflTransGen (TreeEdge tree) root projection.directoryId
  stored : ∀ projection ∈ tree, ∀ entry ∈ projection.entries,
    entry.dirent.parent = projection.directoryId ∧ ∃ row ∈ db.dirents,
      row.place = (uid, projection.directoryId, entry.dirent.id) ∧
      row.version = entry.dirent.version ∧ row.node = entry.dirent.value ∧ row.isLive = true

/-- Every entry that was read is at the version that was read. -/
def StillCurrent (db : KvDatabase) (uid : List UInt8) (tree : KvTree) : Prop :=
  ∀ directory ∈ (kvVersionVectorFromTree tree).directories, ∀ entry ∈ directory.entries,
    db.direntVersion (uid, directory.id, entry.id) = some entry.version

/-- A directory that no entry ever named. -/
structure Unlinked (db : KvDatabase) (uid : List UInt8) (root id : FixedBytes 16) : Prop where
  exists_now : (db.directoryVersion uid id).isSome = true
  ne_root : id ≠ root
  never : ∀ row ∈ db.dirents, row.uid = uid → row.node ≠ .directory id

structure Sound (uid : List UInt8) (root : FixedBytes 16) (s : System) : Prop where
  forest : Forest s.db uid root
  read : ∀ who, WasRead s.db uid root (s.sessions who).tree
  made : ∀ who id, (s.sessions who).made = some id → Unlinked s.db uid root id
  apart : ∀ a b id, (s.sessions a).made = some id → (s.sessions b).made = some id → a = b

/-! ## A batch keeps the forest -/

section

variable {db db' : KvDatabase} {uid : List UInt8} {root : FixedBytes 16}
  {mutations : List KvDirentMutation}

/-- The mutations of a batch that keeps the forest: they are in directories that the root contains,
    at most one enters a directory, and that directory does not contain the place it is entered at
    and is not in another place that the batch leaves alone. -/
structure Admissible (db : KvDatabase) (uid : List UInt8) (root : FixedBytes 16)
    (mutations : List KvDirentMutation) : Prop where
  decodes : ∀ mutation ∈ mutations, ∃ dirent, KvDirent.decode mutation.exact = .ok dirent ∧
    dirent.parent = mutation.parent ∧ dirent.id = mutation.id ∧
    dirent.version = mutation.version ∧ dirent.value = mutation.node
  parents : ∀ mutation ∈ mutations, ReflTransGen (Contains db uid) root mutation.parent
  one : ∀ m ∈ mutations, ∀ m' ∈ mutations, m.node.isDirectory = true →
    m'.node.isDirectory = true → m = m'
  ne_root : ∀ mutation ∈ mutations, mutation.node ≠ .directory root
  apart : ∀ mutation ∈ mutations, ∀ id, mutation.node = .directory id →
    ¬ ReflTransGen (Contains db uid) id mutation.parent
  replaced : ∀ mutation ∈ mutations, mutation.node.isDirectory = true → ∀ row,
    db.IsLiveHead row → row.uid = uid → row.node = mutation.node →
    ∃ m ∈ mutations, (m.row uid).place = row.place

/-- A directory that the root contains is the root or was entered somewhere. -/
theorem entered_of_reached {id : FixedBytes 16} (h : ReflTransGen (Contains db uid) root id) :
    id = root ∨ ∃ above ∈ db.dirents, above.uid = uid ∧ above.node = .directory id := by
  rcases h.cases_tail with hroot | ⟨_, -, row, hlive, huid, -, hnode⟩
  · exact .inl hroot
  · exact .inr ⟨row, (KvDatabase.kvDirent_eq_some hlive.1).1, huid, hnode⟩

variable (hdone : KvDatabase.BatchDone uid mutations db db')
include hdone

/-- The last version of an entry is one of the batch or is as it was before. -/
theorem isLiveHead_of_batch {row : KvDirentRow} (h : db'.IsLiveHead row) :
    (∃ mutation ∈ mutations, row = mutation.row uid) ∨
      db.IsLiveHead row ∧ ∀ mutation ∈ mutations, (mutation.row uid).place ≠ row.place := by
  by_cases hplace : ∃ mutation ∈ mutations, (mutation.row uid).place = row.place
  · obtain ⟨mutation, hmutation, hplace⟩ := hplace
    have hplaced := hdone.placed mutation hmutation
    rw [hplace, h.1] at hplaced
    exact .inl ⟨mutation, hmutation, Option.some.inj hplaced⟩
  · push Not at hplace
    have hsame := hdone.others row.place hplace
    exact .inr ⟨⟨hsame ▸ h.1, h.2⟩, hplace⟩

theorem contains_of_batch {a b : FixedBytes 16} (h : Contains db' uid a b) :
    Contains db uid a b ∨ ∃ mutation ∈ mutations, mutation.parent = a ∧
      mutation.node = .directory b := by
  obtain ⟨row, hlive, huid, hparent, hnode⟩ := h
  rcases isLiveHead_of_batch hdone hlive with ⟨mutation, hmutation, rfl⟩ | ⟨hold, -⟩
  · exact .inr ⟨mutation, hmutation, hparent, hnode⟩
  · exact .inl ⟨row, hold, huid, hparent, hnode⟩

theorem directoryVersion_of_batch (id : FixedBytes 16) :
    db'.directoryVersion uid id = db.directoryVersion uid id := by
  rw [KvDatabase.directoryVersion, hdone.directoryHeads]
  rfl

variable (h : Forest db uid root) (hadmissible : Admissible db uid root mutations)
include h hadmissible

theorem Forest.acyclic_of_batch : Acyclic (Contains db' uid) := by
  by_cases hdirectory : ∃ mutation ∈ mutations, mutation.node.isDirectory = true
  · obtain ⟨mutation, hmutation, hnode⟩ := hdirectory
    -- only the directory of this mutation gets an edge
    refine @Acyclic.replace _ _ _ mutation.parent h.acyclic (fun a b hne hedge => ?_)
      fun b hedge hback => ?_
    · rcases contains_of_batch hdone hedge with hold | ⟨other, hother, hparent, htarget⟩
      · exact hold
      · obtain rfl := hadmissible.one mutation hmutation other hother hnode
          (KvNodeId.isDirectory_iff.mpr (by rw [htarget]; rfl))
        exact absurd hparent.symm hne
    · rcases contains_of_batch hdone hedge with hold | ⟨other, hother, hparent, htarget⟩
      · exact h.acyclic b (.tail' hback hold)
      · exact hadmissible.apart other hother b htarget (hparent ▸ hback)
  · refine h.acyclic.mono fun a b hedge => ?_
    rcases contains_of_batch hdone hedge with hold | ⟨other, hother, -, htarget⟩
    · exact hold
    · exact absurd ⟨other, hother, htarget ▸ KvNodeId.isDirectory_directory b⟩ hdirectory

theorem Forest.unique_of_batch {a b : KvDirentRow} (ha : db'.IsLiveHead a)
    (hb : db'.IsLiveHead b) (huidA : a.uid = uid) (huidB : b.uid = uid)
    (hdirectory : a.node.isDirectory = true) (hnode : a.node = b.node) : a = b := by
  have hdirectoryB : b.node.isDirectory = true := hnode ▸ hdirectory
  rcases isLiveHead_of_batch hdone ha with ⟨m, hm, rfl⟩ | ⟨holdA, hawayA⟩
  · rcases isLiveHead_of_batch hdone hb with ⟨m', hm', rfl⟩ | ⟨holdB, hawayB⟩
    · rw [hadmissible.one m hm m' hm' hdirectory hdirectoryB]
    · obtain ⟨m', hm', hplace⟩ :=
        hadmissible.replaced m hm hdirectory b holdB huidB hnode.symm
      exact absurd hplace (hawayB m' hm')
  · rcases isLiveHead_of_batch hdone hb with ⟨m', hm', rfl⟩ | ⟨holdB, -⟩
    · obtain ⟨m, hm, hplace⟩ :=
        hadmissible.replaced m' hm' hdirectoryB a holdA huidA hnode
      exact absurd hplace (hawayA m hm)
    · exact h.unique a b holdA holdB huidA huidB hdirectory hnode

theorem Forest.batch (hconsistent : db'.Consistent) : Forest db' uid root where
  consistent := hconsistent
  root_row := by
    rw [KvDatabase.kvRoot, hdone.roots]
    exact h.root_row
  root_exists := by
    rw [directoryVersion_of_batch hdone]
    exact h.root_exists
  decodes := by
    intro row hrow huid
    rw [hdone.dirents] at hrow
    rcases List.mem_append.mp hrow with hold | hnew
    · exact h.decodes row hold huid
    · obtain ⟨mutation, hmutation, rfl⟩ := List.mem_map.mp hnew
      exact hadmissible.decodes mutation hmutation
  unique := fun _ _ ha hb => h.unique_of_batch hdone hadmissible ha hb
  root_free := by
    intro a hedge
    rcases contains_of_batch hdone hedge with hold | ⟨mutation, hmutation, -, hnode⟩
    · exact h.root_free a hold
    · exact hadmissible.ne_root mutation hmutation hnode
  acyclic := h.acyclic_of_batch hdone hadmissible
  parents := by
    have hgrow : ∀ row ∈ db.dirents, row ∈ db'.dirents := fun row hrow =>
      hdone.dirents ▸ List.mem_append_left _ hrow
    intro row hrow huid
    have hentered : row.parent = root ∨
        ∃ above ∈ db.dirents, above.uid = uid ∧ above.node = .directory row.parent := by
      rw [hdone.dirents] at hrow
      rcases List.mem_append.mp hrow with hold | hnew
      · exact h.parents row hold huid
      · obtain ⟨mutation, hmutation, rfl⟩ := List.mem_map.mp hnew
        exact entered_of_reached (hadmissible.parents mutation hmutation)
    rcases hentered with hroot | ⟨above, habove, hrest⟩
    · exact .inl hroot
    · exact .inr ⟨above, hgrow above habove, hrest⟩
  targets := by
    intro row hrow huid id hnode
    rw [directoryVersion_of_batch hdone]
    rw [hdone.dirents] at hrow
    rcases List.mem_append.mp hrow with hold | hnew
    · exact h.targets row hold huid id hnode
    · obtain ⟨mutation, hmutation, rfl⟩ := List.mem_map.mp hnew
      have hreference := hdone.nodes mutation hmutation
      have hid : mutation.node = .directory id := hnode
      rw [hid] at hreference
      exact hreference

end

/-! ## What the sessions have read -/

theorem TreeEdge.mono {tree tree' : KvTree}
    (h : ∀ projection ∈ tree, ∃ projection' ∈ tree',
      projection'.directoryId = projection.directoryId ∧ projection.entries ⊆ projection'.entries)
    {a b : FixedBytes 16} (hedge : TreeEdge tree a b) : TreeEdge tree' a b := by
  obtain ⟨projection, hmem, rfl, entry, hentry, hchild⟩ := hedge
  obtain ⟨projection', hmem', hid, hsub⟩ := h projection hmem
  exact ⟨projection', hmem', hid, entry, hsub hentry, hchild⟩

variable {dirent : KvDirent} {projection : KvDirectoryProjection} {node : KvNodeId}

namespace WasRead

variable {db db' : KvDatabase} {uid : List UInt8} {root : FixedBytes 16} {tree : KvTree}

theorem nil : WasRead db uid root [] :=
  ⟨List.nodup_nil, by simp, by simp⟩

theorem mono (h : WasRead db uid root tree) (hgrow : ∀ row ∈ db.dirents, row ∈ db'.dirents) :
    WasRead db' uid root tree := by
  refine ⟨h.distinct, h.reached, fun projection hprojection entry hentry => ?_⟩
  obtain ⟨hparent, row, hrow, hrest⟩ := h.stored projection hprojection entry hentry
  exact ⟨hparent, row, hgrow row hrow, hrest⟩

theorem readRoot (version : UInt64) (pair : KvDirectoryPair) :
    WasRead db uid root [⟨version, root, root, pair, []⟩] := by
  refine ⟨List.nodup_singleton _, ?_, ?_⟩
  · intro projection hprojection
    obtain rfl := List.mem_singleton.mp hprojection
    exact .refl
  · intro projection hprojection entry hentry
    obtain rfl := List.mem_singleton.mp hprojection
    cases hentry

theorem readDirectory (h : WasRead db uid root tree) {projection : KvDirectoryProjection}
    {entry : KvProjectedEntry} {id : FixedBytes 16} (hprojection : projection ∈ tree)
    (hentry : entry ∈ projection.entries) (hid : entry.dirent.value = .directory id)
    (hnew : ∀ other ∈ tree, other.directoryId ≠ id) (version : UInt64)
    (rootDirectoryId : FixedBytes 16) (pair : KvDirectoryPair) :
    WasRead db uid root (tree ++ [⟨version, rootDirectoryId, id, pair, []⟩]) := by
  have hgrow {a b : FixedBytes 16} : TreeEdge tree a b →
      TreeEdge (tree ++ [⟨version, rootDirectoryId, id, pair, []⟩]) a b :=
    TreeEdge.mono fun other hother =>
      ⟨other, List.mem_append_left _ hother, rfl, List.Subset.refl _⟩
  refine ⟨?_, ?_, ?_⟩
  · unfold DistinctDirectories
    rw [List.map_append, List.nodup_append]
    refine ⟨h.distinct, List.nodup_singleton _, ?_⟩
    intro a ha b hb
    obtain ⟨other, hother, rfl⟩ := List.mem_map.mp ha
    obtain rfl := List.mem_singleton.mp hb
    exact hnew other hother
  · intro other hother
    rcases List.mem_append.mp hother with hold | hlast
    · exact ReflTransGen.mono (fun _ _ => hgrow) _ _ (h.reached other hold)
    · obtain rfl := List.mem_singleton.mp hlast
      have habove := ReflTransGen.mono (fun _ _ => hgrow) _ _ (h.reached projection hprojection)
      refine habove.tail (hgrow ?_)
      exact ⟨projection, hprojection, rfl, entry, hentry, hid⟩
  · intro other hother
    rcases List.mem_append.mp hother with hold | hlast
    · exact h.stored other hold
    · obtain rfl := List.mem_singleton.mp hlast
      intro entry hentry
      cases hentry

theorem readEntry (hforest : Forest db uid root) {before after : KvTree}
    {projection : KvDirectoryProjection} {entry : KvProjectedEntry}
    (h : WasRead db uid root (before ++ projection :: after))
    (hentry : Lists db uid projection.directoryId entry) :
    WasRead db uid root
      (before ++ { projection with entries := projection.entries ++ [entry] } :: after) := by
  have hmem (other : KvDirectoryProjection)
      (hother : other ∈ before ++ { projection with entries := projection.entries ++ [entry] } ::
        after) :
      other ∈ before ++ projection :: after ∨
        other = { projection with entries := projection.entries ++ [entry] } := by
    simp only [List.mem_append, List.mem_cons] at hother ⊢
    tauto
  refine ⟨?_, ?_, ?_⟩
  · have hdistinct := h.distinct
    unfold DistinctDirectories at hdistinct ⊢
    rw [List.map_append, List.map_cons] at hdistinct ⊢
    exact hdistinct
  · intro other hother
    have hreached : ReflTransGen (TreeEdge (before ++ projection :: after)) root
        other.directoryId := by
      rcases hmem other hother with hold | rfl
      · exact h.reached other hold
      · exact h.reached projection (List.mem_append_right _ List.mem_cons_self)
    refine ReflTransGen.mono (fun a b => TreeEdge.mono fun old hold => ?_) _ _ hreached
    rcases List.mem_append.mp hold with hbefore | hrest
    · exact ⟨old, List.mem_append_left _ hbefore, rfl, List.Subset.refl _⟩
    · rcases List.mem_cons.mp hrest with rfl | hafter
      · exact ⟨_, List.mem_append_right _ List.mem_cons_self, rfl, List.subset_append_left _ _⟩
      · exact ⟨old, List.mem_append_right _ (List.mem_cons_of_mem _ hafter), rfl,
          List.Subset.refl _⟩
  · intro other hother
    rcases hmem other hother with hold | rfl
    · exact h.stored other hold
    · intro one hone
      rcases List.mem_append.mp hone with hold | hlast
      · exact h.stored projection (List.mem_append_right _ List.mem_cons_self) one hold
      · obtain rfl := List.mem_singleton.mp hlast
        obtain ⟨row, dirent, hlive, huid, hparent, hdecode, hbind⟩ := hentry
        have hrow := (KvDatabase.kvDirent_eq_some hlive.1).1
        obtain ⟨stored, hstored, -, hid, hversion, hnode⟩ := hforest.decodes row hrow huid
        rw [hdecode] at hstored
        cases hstored
        obtain ⟨-, hbody⟩ := ite_error_eq_ok.mp hbind
        obtain ⟨exact, -, hbody⟩ := bind_eq_ok.mp hbody
        have hbound := Except.ok.inj hbody
        rw [← hbound]
        refine ⟨rfl, row, hrow, ?_, hversion.symm, hnode.symm, hlive.2⟩
        rw [KvDirentRow.place, huid, hparent, ← hid]

/-- Everything that is cited and current is there now. -/
theorem live (h : WasRead db uid root tree) (hconsistent : db.Consistent)
    (hcited : StillCurrent db uid tree) (hprojection : projection ∈ tree) {entry : KvProjectedEntry}
    (hentry : entry ∈ projection.entries) :
    ∃ row, db.IsLiveHead row ∧ row.place = (uid, projection.directoryId, entry.dirent.id) ∧
      row.node = entry.dirent.value := by
  obtain ⟨-, row, hrow, hplace, hversion, hnode, hlive⟩ :=
    h.stored projection hprojection entry hentry
  have hhead := hcited projection.versions (versions_mem_vector h.distinct hprojection)
    ⟨entry.dirent.id, entry.dirent.version⟩ (List.mem_map.mpr ⟨entry, hentry, rfl⟩)
  obtain ⟨last, hlast, hlastVersion⟩ := hconsistent.kvDirent_of_version hhead
  obtain ⟨hlastRow, hlastPlace, -⟩ := KvDatabase.kvDirent_eq_some hlast
  -- one version of an entry is stored once
  obtain rfl : last = row := by
    refine Keyed.eq hconsistent.dirents hlastRow hrow ?_
    rw [KvDirentRow.versionPlace, KvDirentRow.versionPlace, hlastPlace, hplace, hlastVersion,
      hversion]
    rfl
  refine ⟨last, ⟨?_, hlive⟩, hplace, hnode⟩
  rw [hplace]
  exact hlast

theorem contains (h : WasRead db uid root tree) (hconsistent : db.Consistent)
    (hcited : StillCurrent db uid tree)
    {a b : FixedBytes 16} (hedge : TreeEdge tree a b) : Contains db uid a b := by
  obtain ⟨projection, hprojection, rfl, entry, hentry, hchild⟩ := hedge
  obtain ⟨row, hlive, hplace, hnode⟩ := h.live hconsistent hcited hprojection hentry
  obtain ⟨huid, hplace⟩ := Prod.mk.inj hplace
  obtain ⟨hparent, -⟩ := Prod.mk.inj hplace
  exact ⟨row, hlive, huid, hparent, hnode.trans hchild⟩

/-- An entry is prepared in the directory asked for. -/
theorem parent_eq (h : WasRead db uid root tree) {parent : FixedBytes 16} {name : List UInt8}
    (hprepared : Prepared tree parent name node dirent) :
    dirent.parent = parent ∧ ReflTransGen (TreeEdge tree) root parent := by
  obtain ⟨projection, hfind, hplace⟩ := hprepared.place
  obtain ⟨hmem, hid⟩ := mem_of_projectionOf hfind
  refine ⟨?_, hid ▸ h.reached projection hmem⟩
  rcases hplace with ⟨-, hparent⟩ | ⟨entry, hentry, hparent, -⟩
  · exact hparent
  · rw [hparent, (h.stored projection hmem entry (List.mem_of_find?_eq_some hentry)).1, hid]

end WasRead

/-! ## What the sessions plan -/

section

variable {db db' : KvDatabase} {uid : List UInt8} {root : FixedBytes 16} {tree : KvTree}
  {parent : FixedBytes 16} {name : List UInt8} {node : KvNodeId} {dirent stored : KvDirent}

theorem decodes_of_stored (h : StoredAs dirent stored) :
    ∃ read, KvDirent.decode (direntMutation stored).exact = .ok read ∧
      read.parent = (direntMutation stored).parent ∧ read.id = (direntMutation stored).id ∧
      read.version = (direntMutation stored).version ∧ read.value = (direntMutation stored).node :=
  ⟨stored, h.1.decode_exact, rfl, rfl, rfl, rfl⟩

theorem parent_of_stored (hread : WasRead db uid root tree)
    (hprepared : Prepared tree parent name node dirent) (h : StoredAs dirent stored) :
    (direntMutation stored).parent = parent := by
  obtain ⟨-, _, _, rfl⟩ := h
  exact (hread.parent_eq hprepared).1

theorem node_of_stored (hprepared : Prepared tree parent name node dirent)
    (h : StoredAs dirent stored) : (direntMutation stored).node = node := by
  obtain ⟨-, _, _, rfl⟩ := h
  exact hprepared.value

theorem WasRead.parent_contained (hread : WasRead db uid root tree) (hconsistent : db.Consistent)
    (hcited : StillCurrent db uid tree) (hprepared : Prepared tree parent name node dirent) :
    ReflTransGen (Contains db uid) root parent :=
  ReflTransGen.mono (fun _ _ => hread.contains hconsistent hcited) _ _
    (hread.parent_eq hprepared).2

/-- A batch of one entry, which is no directory or one that was never entered. -/
theorem admissible_single (hforest : Forest db uid root) (hread : WasRead db uid root tree)
    (hcited : StillCurrent db uid tree) (hprepared : Prepared tree parent name node dirent)
    (hstored : StoredAs dirent stored)
    (hnode : ∀ id, node = .directory id → Unlinked db uid root id) :
    Admissible db uid root [direntMutation stored] := by
  have hreached := hread.parent_contained hforest.consistent hcited hprepared
  have hparent := parent_of_stored hread hprepared hstored
  have hvalue := node_of_stored hprepared hstored
  have hnever : ∀ id, node = .directory id → ∀ row, db.IsLiveHead row → row.uid = uid →
      row.node ≠ .directory id := fun id hid row hlive huid =>
    (hnode id hid).never row (KvDatabase.kvDirent_eq_some hlive.1).1 huid
  refine ⟨?_, ?_, ?_, ?_, ?_, ?_⟩
  · exact List.forall_mem_singleton.mpr (decodes_of_stored hstored)
  · rw [List.forall_mem_singleton, hparent]
    exact hreached
  · intro m hm m' hm' _ _
    rw [List.mem_singleton.mp hm, List.mem_singleton.mp hm']
  · rw [List.forall_mem_singleton]
    exact fun hroot => (hnode root (hvalue ▸ hroot)).ne_root rfl
  · rw [List.forall_mem_singleton, hparent]
    intro id hid hpath
    have hunlinked := hnode id (hvalue ▸ hid)
    -- nothing is in the new directory, and it is not the parent
    rcases hpath.cases_head with rfl | ⟨_, ⟨row, hlive, huid, habove, -⟩, -⟩
    · rcases entered_of_reached hreached with hroot | ⟨above, hmem, huid, hentered⟩
      · exact hunlinked.ne_root hroot
      · exact hunlinked.never above hmem huid hentered
    · rcases hforest.parents row (KvDatabase.kvDirent_eq_some hlive.1).1 huid with
        hroot | ⟨above, hmem, huid', hentered⟩
      · exact hunlinked.ne_root (habove ▸ hroot)
      · exact hunlinked.never above hmem huid' (habove ▸ hentered)
  · rw [List.forall_mem_singleton, hvalue]
    intro hdirectory row hlive huid hrow
    have hid := KvNodeId.isDirectory_iff.mp hdirectory
    exact absurd (hrow.trans hid) (hnever _ hid row hlive huid)

/-- A move: the source is removed and its node, if it is a directory, does not contain the
    destination. -/
theorem admissible_move (hforest : Forest db uid root) (hread : WasRead db uid root tree)
    (hcited : StillCurrent db uid tree) {sourceParent destinationParent : FixedBytes 16}
    {sourceName destinationName : List UInt8} {entry : KvProjectedEntry}
    {removed placed storedRemoved storedPlaced : KvDirent}
    (hprojection : projectionOf tree sourceParent = some projection)
    (hentry : projection.entryNamed sourceName = some entry)
    (hremoved : Prepared tree sourceParent sourceName .tombstone removed)
    (hplaced : Prepared tree destinationParent destinationName entry.dirent.value placed)
    (hreaches : ∀ child, entry.dirent.value = .directory child →
      kvDirectoryReaches tree child destinationParent = .ok false)
    (hstoredRemoved : StoredAs removed storedRemoved)
    (hstoredPlaced : StoredAs placed storedPlaced) :
    Admissible db uid root [direntMutation storedRemoved, direntMutation storedPlaced] := by
  obtain ⟨hmem, hid⟩ := mem_of_projectionOf hprojection
  have hentryMem : entry ∈ projection.entries := List.mem_of_find?_eq_some hentry
  obtain ⟨source, hsource, hplace, hnode⟩ :=
    hread.live hforest.consistent hcited hmem hentryMem
  obtain ⟨huid, hrest⟩ := Prod.mk.inj hplace
  have hparentRemoved := parent_of_stored hread hremoved hstoredRemoved
  have hparentPlaced := parent_of_stored hread hplaced hstoredPlaced
  have hvalueRemoved := node_of_stored hremoved hstoredRemoved
  have hvaluePlaced := node_of_stored hplaced hstoredPlaced
  have hnotRemoved : (direntMutation storedRemoved).node.isDirectory ≠ true := by
    rw [hvalueRemoved]
    exact nofun
  have hedge (child : FixedBytes 16) (hchild : entry.dirent.value = .directory child) :
      Contains db uid projection.directoryId child :=
    ⟨source, hsource, huid, (Prod.mk.inj hrest).1, hnode.trans hchild⟩
  -- the place that is removed is the source
  have hsourcePlace : ((direntMutation storedRemoved).row uid).place = source.place := by
    rw [hplace]
    refine Prod.ext rfl (Prod.ext (hparentRemoved.trans hid.symm) ?_)
    obtain ⟨found, hfound, hcase⟩ := hremoved.place
    obtain rfl := Option.some.inj (hfound.symm.trans hprojection)
    obtain ⟨-, _, _, rfl⟩ := hstoredRemoved
    rcases hcase with ⟨hnone, -⟩ | ⟨same, hsame, -, hsameId⟩
    · rw [hentry] at hnone
      cases hnone
    · obtain rfl := Option.some.inj (hsame.symm.trans hentry)
      exact hsameId
  have hcases {P : KvDirentMutation → Prop} (hfirst : P (direntMutation storedRemoved))
      (hsecond : P (direntMutation storedPlaced)) :
      ∀ m ∈ [direntMutation storedRemoved, direntMutation storedPlaced], P m := by
    simpa using ⟨hfirst, hsecond⟩
  refine ⟨?_, ?_, ?_, ?_, ?_, ?_⟩
  · exact hcases (decodes_of_stored hstoredRemoved) (decodes_of_stored hstoredPlaced)
  · refine hcases ?_ ?_
    · rw [hparentRemoved]
      exact hread.parent_contained hforest.consistent hcited hremoved
    · rw [hparentPlaced]
      exact hread.parent_contained hforest.consistent hcited hplaced
  · refine hcases (fun _ _ hdirectory => ?_) (hcases (fun _ hdirectory => ?_) fun _ _ => rfl)
    · exact absurd hdirectory hnotRemoved
    · exact absurd hdirectory hnotRemoved
  · refine hcases ?_ ?_
    · exact fun hroot => hnotRemoved (hroot ▸ KvNodeId.isDirectory_directory root)
    · intro hroot
      exact hforest.root_free _ (hedge root (hvaluePlaced ▸ hroot))
  · refine hcases ?_ ?_
    · exact fun id hid => absurd (hid ▸ KvNodeId.isDirectory_directory id) hnotRemoved
    · intro child hchild hpath
      rw [hparentPlaced] at hpath
      have hsource := hvaluePlaced ▸ hchild
      refine kvDirectoryReaches_eq_false hread.distinct (hreaches child hsource) ?_
      have hcontains (a b : FixedBytes 16) (h : TreeEdge tree a b) : Contains db uid a b :=
        hread.contains hforest.consistent hcited h
      refine reaches_on_path hcontains ?_ hforest.root_free (hread.parent_eq hplaced).2 hpath
      rintro a a' b ⟨row, hlive, huid, rfl, hnode⟩ ⟨row', hlive', huid', rfl, hnode'⟩
      rw [hforest.unique row row' hlive hlive' huid huid'
        (hnode ▸ KvNodeId.isDirectory_directory b) (hnode.trans hnode'.symm)]
  · refine hcases ?_ ?_
    · exact fun hdirectory => absurd hdirectory hnotRemoved
    · intro hdirectory row hlive huid' hrow
      rw [hvaluePlaced] at hdirectory hrow
      have hsame := hforest.unique source row hsource hlive huid huid' (hnode ▸ hdirectory)
        (hnode.trans hrow.symm)
      exact ⟨_, List.mem_cons_self, hsame ▸ hsourcePlace⟩

end

/-! ## Every step -/

/-- The entries and the root are the same, and no directory is lost. -/
structure KeepsEntries (uid : List UInt8) (db db' : KvDatabase) : Prop where
  dirents : db'.dirents = db.dirents
  direntHeads : db'.direntHeads = db.direntHeads
  current : db'.current = db.current
  roots : db'.roots = db.roots
  directories : ∀ id, (db.directoryVersion uid id).isSome = true →
    (db'.directoryVersion uid id).isSome = true

namespace KeepsEntries

variable {db db' : KvDatabase} {uid : List UInt8} {root : FixedBytes 16}

section

variable (h : KeepsEntries uid db db')
include h

theorem kvDirent (place : KvPlace) :
    db'.kvDirent place = db.kvDirent place := by
  rw [KvDatabase.kvDirent, KvDatabase.direntVersion, h.direntHeads, h.dirents]
  rfl

theorem contains : Contains db' uid = Contains db uid := by
  funext a b
  simp only [Contains, KvDatabase.IsLiveHead, h.kvDirent]

theorem forest (hforest : Forest db uid root) :
    Forest db' uid root where
  consistent := hforest.consistent.sameEntries ⟨h.dirents, h.direntHeads, h.current⟩
  root_row := by
    rw [KvDatabase.kvRoot, h.roots]
    exact hforest.root_row
  root_exists := h.directories root hforest.root_exists
  decodes := h.dirents ▸ hforest.decodes
  unique := by
    simp only [KvDatabase.IsLiveHead, h.kvDirent]
    exact hforest.unique
  root_free := h.contains ▸ hforest.root_free
  acyclic := h.contains ▸ hforest.acyclic
  parents := h.dirents ▸ hforest.parents
  targets := by
    rw [h.dirents]
    exact fun row hrow huid id hnode => h.directories id (hforest.targets row hrow huid id hnode)

theorem unlinked {id : FixedBytes 16}
    (hid : Unlinked db uid root id) : Unlinked db' uid root id :=
  ⟨h.directories id hid.exists_now, hid.ne_root, h.dirents ▸ hid.never⟩

end

theorem namespaces (db : KvDatabase) (uid : List UInt8) (namespaces : List KvNamespaceRow) :
    KeepsEntries uid db { db with namespaces } :=
  ⟨rfl, rfl, rfl, rfl, fun _ hid => hid⟩

theorem newDirectory (db : KvDatabase) (uid : List UInt8) (namespaces : List KvNamespaceRow)
    (directories : List KvDirectoryRow) (head : KvDirectoryHead) :
    KeepsEntries uid db { db with
      namespaces, directories, directoryHeads := db.directoryHeads ++ [head] } := by
  refine ⟨rfl, rfl, rfl, rfl, fun id hid => ?_⟩
  unfold KvDatabase.directoryVersion at hid ⊢
  rw [Option.isSome_map] at hid ⊢
  rw [List.find?_append, Option.isSome_or, hid]
  rfl

end KeepsEntries

section

variable {uid name : List UInt8} {root parent : FixedBytes 16} {s : System} {db : KvDatabase}

section

variable (h : Sound uid root s)
include h

section

variable (who : Nat)

/-- The database changes and so may the directory that one session has made. -/
theorem Sound.update {made : Option (FixedBytes 16)} (hforest : Forest db uid root)
    (hgrow : ∀ row ∈ s.db.dirents, row ∈ db.dirents)
    (hothers : ∀ other id, other ≠ who → (s.sessions other).made = some id →
      Unlinked db uid root id) (hmade : ∀ id, made = some id → Unlinked db uid root id ∧
      ∀ other, other ≠ who → (s.sessions other).made ≠ some id) :
    Sound uid root (s.withSession db who ⟨(s.sessions who).tree, made⟩) := by
  have hself : (s.withSession db who ⟨(s.sessions who).tree, made⟩).sessions who =
      ⟨(s.sessions who).tree, made⟩ := Function.update_self ..
  have hother (other : Nat) (hne : other ≠ who) :
      (s.withSession db who ⟨(s.sessions who).tree, made⟩).sessions other = s.sessions other :=
    Function.update_of_ne hne ..
  refine ⟨hforest, ?_, ?_, ?_⟩
  · intro other
    have hread := (h.read other).mono hgrow
    by_cases hne : other = who
    · subst hne
      rw [hself]
      exact hread
    · rw [hother other hne]
      exact hread
  · intro other id hid
    by_cases hne : other = who
    · subst hne
      rw [hself] at hid
      exact (hmade id hid).1
    · rw [hother other hne] at hid
      exact hothers other id hne hid
  · intro a b id ha hb
    by_cases hneA : a = who
    · by_cases hneB : b = who
      · rw [hneA, hneB]
      · rw [hneA, hself] at ha
        rw [hother b hneB] at hb
        exact absurd hb ((hmade id ha).2 b hneB)
    · rw [hother a hneA] at ha
      by_cases hneB : b = who
      · rw [hneB, hself] at hb
        exact absurd ha ((hmade id hb).2 a hneA)
      · rw [hother b hneB] at hb
        exact h.apart a b id ha hb

theorem Sound.withDatabase (hforest : Forest db uid root)
    (hgrow : ∀ row ∈ s.db.dirents, row ∈ db.dirents)
    (hmade : ∀ who id, (s.sessions who).made = some id → Unlinked db uid root id) :
    Sound uid root { s with db } :=
  ⟨hforest, fun who => (h.read who).mono hgrow, hmade, h.apart⟩

theorem Sound.keepsEntries (hkeeps : KeepsEntries uid s.db db) : Sound uid root { s with db } :=
  h.withDatabase (hkeeps.forest h.forest) (fun _ hrow => hkeeps.dirents ▸ hrow)
    fun who id hid => hkeeps.unlinked (h.made who id hid)

theorem Sound.withTree {tree : KvTree} (htree : WasRead s.db uid root tree) :
    Sound uid root (s.withSession s.db who { s.sessions who with tree }) := by
  have hmade (other : Nat) :
      ((s.withSession s.db who { s.sessions who with tree }).sessions other).made =
        (s.sessions other).made := by
    by_cases hother : other = who
    · subst hother
      simp [System.withSession]
    · simp [System.withSession, hother]
  refine ⟨h.forest, fun other => ?_, fun other id hid => h.made other id (hmade other ▸ hid),
    fun a b id ha hb => h.apart a b id (hmade a ▸ ha) (hmade b ▸ hb)⟩
  by_cases hother : other = who
  · subst hother
    simpa [System.withSession] using htree
  · simpa [System.withSession, hother] using h.read other

theorem Sound.makeDirectory {directory : KvDirectory} {exact : List UInt8}
    {made : Option (FixedBytes 16)} {precondition : Option KvPathVersionVector}
    (hexact : directory.encode = .ok exact) (hfresh : s.db.directoryVersion uid directory.id = none)
    (hmade : made = none ∨ made = some directory.id ∧
      (kvMkdir s.db uid precondition exact).1 = .ok ()) :
    Sound uid root (s.withSession (kvMkdir s.db uid precondition exact).2 who
      ⟨(s.sessions who).tree, made⟩) := by
  have hnotThere : ¬ (s.db.directoryVersion uid directory.id).isSome = true := by simp [hfresh]
  obtain ⟨namespaces, ⟨hsame, hthere⟩ | ⟨row, hnew⟩⟩ := kvMkdir_cases s.db uid precondition hexact
  · have hkeeps := KeepsEntries.namespaces s.db uid namespaces
    rw [hsame]
    refine h.update who (hkeeps.forest h.forest) (fun _ hrow => hrow)
      (fun other id _ hid => hkeeps.unlinked (h.made other id hid)) ?_
    rintro id rfl
    rcases hmade with hnone | ⟨-, hok⟩
    · cases hnone
    · exact absurd (hthere hok) hnotThere
  · have hkeeps := KeepsEntries.newDirectory s.db uid namespaces (s.db.directories ++ [row])
      ⟨uid, directory.id, directory.version⟩
    rw [hnew]
    refine h.update who (hkeeps.forest h.forest) (fun _ hrow => hrow)
      (fun other id _ hid => hkeeps.unlinked (h.made other id hid)) ?_
    rintro id rfl
    obtain rfl : id = directory.id := by
      rcases hmade with hnone | ⟨hsome, -⟩
      · cases hnone
      · exact Option.some.inj hsome
    refine ⟨⟨?_, ?_, ?_⟩, ?_⟩
    · unfold KvDatabase.directoryVersion
      simp
    · intro hroot
      exact hnotThere (hroot ▸ h.forest.root_exists)
    · intro other hother huid hnode
      exact hnotThere (h.forest.targets other hother huid _ hnode)
    · intro other _ hid
      exact hnotThere (h.made other _ hid).exists_now

variable (maximumRole : Role) (now : UInt64)

/-- What a `put` of a session does, if its batch is one that keeps the forest. -/
theorem Sound.put {dirents : List KvDirent} (hsealed : ∀ dirent ∈ dirents, dirent.IsSealed)
    (hadmissible : StillCurrent s.db uid (s.sessions who).tree → ∀ stored,
      List.Forall₂ StoredAs dirents stored →
      Admissible s.db uid root (stored.map direntMutation)) :
    Forest (s.put uid who maximumRole now dirents).2 uid root ∧
      (∀ row ∈ s.db.dirents, row ∈ (s.put uid who maximumRole now dirents).2.dirents) ∧
      ∀ id, Unlinked s.db uid root id →
        ((s.put uid who maximumRole now dirents).1 = .ok () →
          ∀ dirent ∈ dirents, dirent.value ≠ .directory id) →
        Unlinked (s.put uid who maximumRole now dirents).2 uid root id := by
  have hconsistent : (s.put uid who maximumRole now dirents).2.Consistent :=
    kvPut_consistent h.forest.consistent uid _ maximumRole now _
  rcases kvPut_cases uid (kvVersionVectorFromTree (s.sessions who).tree) maximumRole now
    hsealed with ⟨namespaces, hsame⟩ | ⟨stored, hstored, hcited, hok, hdone⟩
  · have hkeeps := KeepsEntries.namespaces s.db uid namespaces
    rw [System.put, hsame]
    exact ⟨hkeeps.forest h.forest, fun _ hrow => hrow, fun id hid _ => hkeeps.unlinked hid⟩
  · refine ⟨h.forest.batch hdone (hadmissible hcited stored hstored) hconsistent, ?_, ?_⟩
    · intro row hrow
      rw [System.put, hdone.dirents]
      exact List.mem_append_left _ hrow
    · intro id hid hnot
      refine ⟨?_, hid.ne_root, ?_⟩
      · rw [System.put, directoryVersion_of_batch hdone]
        exact hid.exists_now
      · intro row hrow huid hnode
        rw [System.put, hdone.dirents] at hrow
        rcases List.mem_append.mp hrow with hold | hnew
        · exact hid.never row hold huid hnode
        · obtain ⟨mutation, hmutation, rfl⟩ := List.mem_map.mp hnew
          obtain ⟨last, hlast, rfl⟩ := List.mem_map.mp hmutation
          obtain ⟨dirent, hdirent, -, _, _, rfl⟩ := exists_of_mem_forall₂ hstored hlast
          exact hnot hok dirent hdirent hnode

theorem Sound.putSingle (hprepared : Prepared (s.sessions who).tree parent name node dirent)
    (hnode : ∀ id, node = .directory id → Unlinked s.db uid root id) :
    Forest (s.put uid who maximumRole now [dirent]).2 uid root ∧
      (∀ row ∈ s.db.dirents, row ∈ (s.put uid who maximumRole now [dirent]).2.dirents) ∧
      ∀ id, Unlinked s.db uid root id →
        ((s.put uid who maximumRole now [dirent]).1 = .ok () → node ≠ .directory id) →
        Unlinked (s.put uid who maximumRole now [dirent]).2 uid root id := by
  have hput := h.put who maximumRole now (List.forall_mem_singleton.mpr hprepared.isSealed)
    fun hcited stored hstored => by
      obtain ⟨last, _, hlast, hnil, rfl⟩ := List.forall₂_cons_left_iff.mp hstored
      obtain rfl := List.forall₂_nil_left_iff.mp hnil
      exact admissible_single h.forest (h.read who) hcited hprepared hlast hnode
  refine ⟨hput.1, hput.2.1, fun id hid hnot => hput.2.2 id hid fun hok => ?_⟩
  rw [List.forall_mem_singleton, hprepared.value]
  exact hnot hok

theorem Sound.putLeaf (hprepared : Prepared (s.sessions who).tree parent name node dirent)
    (hnode : node.isDirectory = false) :
    Sound uid root { s with db := (s.put uid who maximumRole now [dirent]).2 } := by
  have hleaf (id : FixedBytes 16) : node ≠ .directory id := by
    rintro rfl
    cases hnode
  obtain ⟨hforest, hgrow, hunlinked⟩ := h.putSingle who maximumRole now hprepared
    fun id hid => absurd hid (hleaf id)
  exact h.withDatabase hforest hgrow fun other id hid =>
    hunlinked id (h.made other id hid) fun _ => hleaf id

theorem Sound.linkDirectory {parent id : FixedBytes 16} {name : List UInt8} {dirent : KvDirent}
    {made : Option (FixedBytes 16)}
    (hprepared : Prepared (s.sessions who).tree parent name (.directory id) dirent)
    (hid : (s.sessions who).made = some id) (hmade : made = none ∨
      made = some id ∧ (s.put uid who maximumRole now [dirent]).1 ≠ .ok ()) :
    Sound uid root (s.withSession (s.put uid who maximumRole now [dirent]).2 who
      ⟨(s.sessions who).tree, made⟩) := by
  obtain ⟨hforest, hgrow, hunlinked⟩ := h.putSingle who maximumRole now hprepared
    fun other hother => KvNodeId.directory_inj hother ▸ h.made who id hid
  refine h.update who hforest hgrow (fun other id' hne hid' => ?_) ?_
  · refine hunlinked id' (h.made other id' hid') fun _ hsame => hne ?_
    obtain rfl := KvNodeId.directory_inj hsame
    exact h.apart other who id hid' hid
  · rintro id' rfl
    rcases hmade with hnone | ⟨hsome, hrefused⟩
    · cases hnone
    · obtain rfl := Option.some.inj hsome
      refine ⟨hunlinked id' (h.made who id' hid) fun hok => absurd hok hrefused, ?_⟩
      exact fun other hne hother => hne (h.apart other who id' hother hid)

theorem Sound.move {keys : KvKeys} {draws : KvDraws} {sourceParent : FixedBytes 16}
    {sourceName : List UInt8} {sourceId : FixedBytes 16} {sourceVersion : Option UInt64}
    {destinationParent : FixedBytes 16} {destinationName : List UInt8} {options : KvWriteOptions}
    {dirents : List KvDirent}
    (hplan : moveEntrySelected keys draws (s.sessions who).tree sourceParent sourceName sourceId
      sourceVersion destinationParent destinationName options = .ok dirents) :
    Sound uid root { s with db := (s.put uid who maximumRole now dirents).2 } := by
  obtain ⟨removed, placed, projection, entry, rfl, hprojection, hentry, hremoved, hplaced,
    hreaches⟩ := moveEntrySelected_eq_ok hplan
  have hsealed : ∀ dirent ∈ [removed, placed], dirent.IsSealed := by
    simp [hremoved.isSealed, hplaced.isSealed]
  obtain ⟨hforest, hgrow, hunlinked⟩ := h.put who maximumRole now hsealed
    fun hcited stored hstored => by
      obtain ⟨first, _, hfirst, hrest, rfl⟩ := List.forall₂_cons_left_iff.mp hstored
      obtain ⟨last, _, hlast, hnil, rfl⟩ := List.forall₂_cons_left_iff.mp hrest
      obtain rfl := List.forall₂_nil_left_iff.mp hnil
      exact admissible_move h.forest (h.read who) hcited hprojection hentry hremoved hplaced
        hreaches hfirst hlast
  refine h.withDatabase hforest hgrow fun other id hid =>
    hunlinked id (h.made other id hid) fun _ dirent hdirent hnode => ?_
  have hcase : dirent = removed ∨ dirent = placed := by simpa using hdirent
  rcases hcase with rfl | rfl
  · rw [hremoved.value] at hnode
    cases hnode
  · -- what is moved was entered before
    rw [hplaced.value] at hnode
    obtain ⟨-, row, hrow, hplace, -, hvalue, -⟩ := (h.read who).stored projection
      (mem_of_projectionOf hprojection).1 entry (List.mem_of_find?_eq_some hentry)
    exact (h.made other id hid).never row hrow (Prod.mk.inj hplace).1 (hvalue.trans hnode)

end

theorem Sound.step {s' : System} (hstep : Step uid s s') :
    Sound uid root s' := by
  cases hstep with
  | restart who => exact h.withTree who .nil
  | @readRoot who row pair hroot hpair =>
    obtain ⟨same, hsame, rfl⟩ := h.forest.root_row
    obtain rfl := Option.some.inj (hroot.symm.trans hsame)
    exact h.withTree who (.readRoot _ _)
  | @readDirectory who first projection rest entry id pair htree hprojection hentry hid hnew
    hpair =>
    have hread := h.read who
    rw [htree] at hread
    exact h.withTree who (hread.readDirectory hprojection hentry hid hnew _ _ _)
  | @readEntry who before after projection entry htree hentry =>
    have hread := h.read who
    rw [htree] at hread
    exact h.withTree who (hread.readEntry h.forest hentry)
  | @makeDirectory who parent name options directory exact made hplan _ _ hexact hfresh hmade =>
    exact h.makeDirectory who hexact hfresh hmade
  | @linkDirectory who _ _ _ _ _ id _ maximumRole now made hid hplan hmade =>
    obtain ⟨dirent, rfl, hprepared⟩ := linkUploadedNode_eq_ok hplan
    exact h.linkDirectory who maximumRole now hprepared hid hmade
  | putNode mutation =>
    obtain ⟨namespaces, nodes, hdb⟩ := s.db.putKvNode_cases mutation
    rw [hdb]
    exact h.keepsEntries ⟨rfl, rfl, rfl, rfl, fun _ hid => hid⟩
  | @linkNode who _ _ _ _ _ _ _ _ maximumRole now hnode hplan =>
    obtain ⟨dirent, rfl, hprepared⟩ := linkUploadedNode_eq_ok hplan
    exact h.putLeaf who maximumRole now hprepared hnode
  | @unlink who _ _ _ _ _ _ _ _ maximumRole now hplan =>
    obtain ⟨dirent, rfl, hprepared⟩ := unlinkSelected_eq_ok hplan
    exact h.putLeaf who maximumRole now hprepared rfl
  | @move who _ _ _ _ _ _ _ _ _ _ maximumRole now hplan =>
    exact h.move who maximumRole now hplan
  | outside parties uploads =>
    exact h.keepsEntries ⟨rfl, rfl, rfl, rfl, fun _ hid => hid⟩

end

end

theorem Start.sound {uid : List UInt8} {s : System} (h : Start uid s) :
    ∃ root, Sound uid root s := by
  obtain ⟨row, hrow, hexists⟩ := h.root
  have hnone {a b : FixedBytes 16} : ¬ Contains s.db uid a b := by
    rintro ⟨entry, hlive, huid, -⟩
    exact h.empty entry (KvDatabase.kvDirent_eq_some hlive.1).1 huid
  refine ⟨row.directoryId,
    ⟨h.reached.consistent, ⟨row, hrow, rfl⟩, hexists, ?_, ?_, ?_, ?_, ?_, ?_⟩,
    ?_, ?_, ?_⟩
  · exact fun entry hentry huid => absurd huid (h.empty entry hentry)
  · intro a b ha _ huid
    exact absurd huid (h.empty a (KvDatabase.kvDirent_eq_some ha.1).1)
  · exact fun _ => hnone
  · intro x hcycle
    obtain ⟨_, hedge, -⟩ := Relation.TransGen.head'_iff.mp hcycle
    exact hnone hedge
  · exact fun entry hentry huid => absurd huid (h.empty entry hentry)
  · exact fun entry hentry huid => absurd huid (h.empty entry hentry)
  · intro who
    rw [h.sessions who]
    exact .nil
  · intro who id hid
    rw [h.sessions who] at hid
    cases hid
  · intro a b id ha
    rw [h.sessions a] at ha
    cases ha

theorem Sound.run {uid : List UInt8} {root : FixedBytes 16} {s s' : System}
    (h : Sound uid root s) (hrun : ReflTransGen (Step uid) s s') : Sound uid root s' := by
  induction hrun with
  | refl => exact h
  | tail _ hstep ih => exact ih.step hstep

/-- However the sessions interleave, no directory contains itself and none is in two places. -/
theorem directories_form_forest {uid : List UInt8} {start s : System} (hstart : Start uid start)
    (hrun : ReflTransGen (Step uid) start s) :
    Acyclic (Contains s.db uid) ∧
      ∀ a b id, s.db.IsLiveHead a → s.db.IsLiveHead b → a.uid = uid → b.uid = uid →
        a.node = .directory id → b.node = .directory id → a = b := by
  obtain ⟨root, hsound⟩ := hstart.sound
  have hforest := (hsound.run hrun).forest
  refine ⟨hforest.acyclic, fun a b id ha hb huidA huidB hnodeA hnodeB => ?_⟩
  exact hforest.unique a b ha hb huidA huidB (hnodeA ▸ KvNodeId.isDirectory_directory id)
    (hnodeA.trans hnodeB.symm)

/-- However the sessions interleave, no entry dangles: its parent is the root or was entered itself,
    the directory it names exists, and nothing contains the root. -/
theorem entries_never_dangle {uid : List UInt8} {start s : System} (hstart : Start uid start)
    (hrun : ReflTransGen (Step uid) start s) : ∃ root, s.db.kvRoot uid = some root ∧
      (∀ a, ¬ Contains s.db uid a root.directoryId) ∧
      ∀ row ∈ s.db.dirents, row.uid = uid → (row.parent = root.directoryId ∨
        ∃ above ∈ s.db.dirents, above.uid = uid ∧ above.node = .directory row.parent) ∧
        ∀ id, row.node = .directory id → (s.db.directoryVersion uid id).isSome = true := by
  obtain ⟨_, hsound⟩ := hstart.sound
  have hforest := (hsound.run hrun).forest
  obtain ⟨root, hroot, rfl⟩ := hforest.root_row
  exact ⟨root, hroot, hforest.root_free, fun row hrow huid =>
    ⟨hforest.parents row hrow huid, hforest.targets row hrow huid⟩⟩

namespace Sample

open KvDatabase.KvSample (uid fresh)

def ident (tag : UInt8) : FixedBytes 16 := .replicate 16 tag

def directory (tag : UInt8) : KvDirectory := ⟨ident tag, 1, ⟨.owner, 1⟩, [], .owner, .active⟩

def encoded (tag : UInt8) : List UInt8 := ((directory tag).encode.toOption).getD []

/-- A user with a root directory. -/
def started : KvDatabase :=
  let made := (fresh.write (.directory (directoryMutation uid (directory 1) (encoded 1)) none)).2
  (made.write (.root ⟨uid, 1, ident 1, 1, 3, 1, [1]⟩)).2

def rootRow : KvRootRow := ⟨uid, 1, ident 1, 1, [1]⟩

def start : System := ⟨started, fun _ => ⟨[], none⟩⟩

theorem start_starts : Start uid start := by
  refine ⟨.write (.write (.empty ..) _) _, ⟨rootRow, ?_, ?_⟩, ?_, fun _ => rfl⟩
  · decide +kernel
  · decide +kernel
  · have hempty : start.db.dirents = [] := by decide +kernel
    simp [hempty]

theorem answers_directory {db : KvDatabase} {tag : UInt8}
    (hrow : db.kvDirectory uid (ident tag) = some ⟨uid, ident tag, 1, 3, 0, 1, 0, encoded tag⟩)
    (hencode : (directory tag).encode = .ok (encoded tag)) :
    Answers db uid (ident tag) ⟨directory tag, none⟩ :=
  ⟨_, directory tag, hrow, KvDirectory.decode_encode hencode, rfl⟩

/-- Names are sealed with their first byte as MAC. -/
def keys : KvKeys :=
  ⟨fun _ => .ok (.replicate 32 0), fun _ _ _ name _ =>
    .ok (.replicate 32 (name.headD 0), ⟨ident 0, name⟩), fun _ _ => .ok (.replicate 32 0)⟩

def options : KvWriteOptions := ⟨.owner, .owner, false, none⟩

def projected (tag : UInt8) (entries : List KvProjectedEntry) : KvDirectoryProjection :=
  ⟨1, ident 1, ident tag, ⟨directory tag, none⟩, entries⟩

/-- The first session has read the root. -/
def read : System := start.withSession started 0 ⟨[projected 1 []], none⟩

/-- It has made a directory. -/
def made : System :=
  read.withSession
    (kvMkdir started uid (some (kvVersionVectorFromTree [projected 1 []])) (encoded 2)).2 0
    ⟨[projected 1 []], some (ident 2)⟩

def entry : KvDirent :=
  ⟨ident 1, ident 9, .directory (ident 2), 1, 1, .owner, .replicate 32 0x61, ⟨ident 0, [0x61]⟩,
    .active, .replicate 32 0, 5, []⟩

/-- The entry with its encoding. -/
def sealedEntry : KvDirent := { entry with exact := (entry.encode.toOption).getD [] }

/-- It has entered the directory in the root. -/
def linked : System :=
  made.withSession (made.put uid 0 .owner 5 [sealedEntry]).2 0 ⟨[projected 1 []], none⟩

theorem linked_run : ReflTransGen (Step uid) start linked := by
  have hroot : start.db.kvRoot uid = some rootRow := by decide +kernel
  have hread : Step uid start read :=
    @Step.readRoot uid start 0 _ ⟨directory 1, none⟩ hroot
      (answers_directory (by decide +kernel) (by decide +kernel))
  have hplan : planDirectory [projected 1 []] (ident 1) [0x61] options = .ok () := by decide +kernel
  have hok : (kvMkdir started uid (some (kvVersionVectorFromTree [projected 1 []]))
      (encoded 2)).1 = .ok () := by
    decide +kernel
  have hmade : Step uid read made :=
    @Step.makeDirectory uid read 0 _ _ _ (directory 2) (encoded 2) (some (ident 2))
      hplan rfl rfl (by decide +kernel) (by decide +kernel) (.inr ⟨rfl, hok⟩)
  have hentry : linkUploadedNode keys ⟨ident 9, ident 0, 5⟩ [projected 1 []] (ident 1) [0x61]
      (.directory (ident 2)) options none = .ok [sealedEntry] := by decide +kernel
  have hlinked : Step uid made linked :=
    @Step.linkDirectory uid made 0 keys _ _ _ _ _ _ .owner 5 none rfl hentry (.inl rfl)
  exact ((ReflTransGen.single hread).tail hmade).tail hlinked

theorem exists_liveHead (db : KvDatabase) (parent dirent : FixedBytes 16) (p : KvDirentRow → Bool)
    (h : (db.kvDirent (uid, parent, dirent)).any (fun row => row.isLive && p row) = true) :
    ∃ row, db.IsLiveHead row ∧ row.uid = uid ∧ row.parent = parent ∧ p row = true := by
  cases hfind : db.kvDirent (uid, parent, dirent) with
  | none =>
    rw [hfind] at h
    cases h
  | some row =>
    rw [hfind, Option.any_some, Bool.and_eq_true] at h
    have hplace := (KvDatabase.kvDirent_eq_some hfind).2.1
    exact ⟨row, ⟨hplace ▸ hfind, h.1⟩, congrArg Prod.fst hplace,
      congrArg (fun place => place.2.1) hplace, h.2⟩

/-- The second session has read the root, its entry and the directory in it. -/
def rootRead : System := linked.withSession linked.db 1 ⟨[projected 1 []], none⟩

def listed : KvProjectedEntry := ⟨true, [0x61], sealedEntry⟩

def entryRead : System := rootRead.withSession rootRead.db 1 ⟨[projected 1 [listed]], none⟩

def allRead : System :=
  entryRead.withSession entryRead.db 1 ⟨[projected 1 [listed], projected 2 []], none⟩

/-- The second session renames the directory. -/
def movePlan : List KvDirent :=
  ((moveEntrySelected keys ⟨ident 8, ident 0, 6⟩ [projected 1 [listed], projected 2 []] (ident 1)
    [0x61] (ident 9) none (ident 1) [0x62] options).toOption).getD []

def moved : System := { allRead with db := (allRead.put uid 1 .owner 8 movePlan).2 }

theorem moved_run : ReflTransGen (Step uid) start moved := by
  have hroot : linked.db.kvRoot uid = some rootRow := by decide +kernel
  have hfirst : Step uid linked rootRead :=
    @Step.readRoot uid linked 1 _ ⟨directory 1, none⟩ hroot
      (answers_directory (by decide +kernel) (by decide +kernel))
  obtain ⟨row, hlive, huid, hparent, hexact⟩ := exists_liveHead rootRead.db (ident 1) (ident 9)
    (fun row => row.exact = sealedEntry.exact) (by decide +kernel)
  have hdecode : KvDirent.decode row.exact = .ok sealedEntry := by
    rw [of_decide_eq_true hexact]
    decide +kernel
  have hentry : Step uid rootRead entryRead :=
    @Step.readEntry uid rootRead 1 [] [] (projected 1 []) listed rfl
      ⟨row, sealedEntry, hlive, huid, hparent, hdecode, by decide +kernel⟩
  have hsecond : Step uid entryRead allRead :=
    @Step.readDirectory uid entryRead 1 (projected 1 [listed]) _ [] listed (ident 2)
      ⟨directory 2, none⟩ rfl List.mem_cons_self List.mem_cons_self rfl (by decide +kernel)
      (answers_directory (by decide +kernel) (by decide +kernel))
  have hplan : moveEntrySelected keys ⟨ident 8, ident 0, 6⟩ [projected 1 [listed], projected 2 []]
      (ident 1) [0x61] (ident 9) none (ident 1) [0x62] options = .ok movePlan := by decide +kernel
  have hmoved : Step uid allRead moved :=
    @Step.move uid allRead 1 keys _ _ _ _ _ _ _ _ _ .owner 8 hplan
  exact (((linked_run.tail hfirst).tail hentry).tail hsecond).tail hmoved

/-- One session makes a directory and another one renames it: there is one edge and no cycle. -/
theorem moved_forest :
    Contains moved.db uid (ident 1) (ident 2) ∧ Acyclic (Contains moved.db uid) := by
  obtain ⟨row, hlive, huid, hparent, hnode⟩ := exists_liveHead moved.db (ident 1) (ident 8)
    (fun row => row.node = .directory (ident 2)) (by decide +kernel)
  exact ⟨⟨row, hlive, huid, hparent, of_decide_eq_true hnode⟩,
    (directories_form_forest start_starts moved_run).1⟩

/-- The two versions of the first entry and the second entry do not dangle. -/
theorem moved_entries : moved.db.kvRoot uid = some rootRow ∧
    (moved.db.dirents.map fun row => (row.parent, row.node)) =
      [(ident 1, .directory (ident 2)), (ident 1, .tombstone), (ident 1, .directory (ident 2))] ∧
    (∀ a, ¬ Contains moved.db uid a (ident 1)) ∧
    ∀ row ∈ moved.db.dirents, row.uid = uid → (row.parent = ident 1 ∨
      ∃ above ∈ moved.db.dirents, above.uid = uid ∧ above.node = .directory row.parent) ∧
      ∀ id, row.node = .directory id → (moved.db.directoryVersion uid id).isSome = true := by
  have hroot : moved.db.kvRoot uid = some rootRow := by decide +kernel
  obtain ⟨root, hfound, hfree, hrows⟩ := entries_never_dangle start_starts moved_run
  obtain rfl : rootRow = root := Option.some.inj (hroot.symm.trans hfound)
  exact ⟨hroot, by decide +kernel, hfree, hrows⟩

end Sample

end Foks.Kv
