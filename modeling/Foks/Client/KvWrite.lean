/-
  Planning writes of a KV namespace (`foks-client`, `kv/write.rs` and `kv/support.rs`).

  A session has read some directories of the namespace, the root first. From these it prepares the
  entries of a write: a new version of an entry it has seen, or the first version of a new one. A
  directory is moved only if the search from it over the directories read does not find the
  destination (`kvDirectoryReaches`). The versions of everything read go with the request
  (`kvVersionVectorFromTree`).

  Keys and random values are parameters. A projected entry holds its decoded entry in place of the
  bytes, of which the source also keeps single fields.
-/
import Foks.Client.Error
import Foks.Lib.Reach
import Foks.Lib.SortedMap
import Foks.Proto.Kv

namespace Foks.Client

open Foks.Lib Foks.Proto
open Foks.Verify (checkedAddU64)

/-! ## What a session has read -/

structure KvProjectedEntry where
  /-- False only if the child may not be read. -/
  readable : Bool
  name : List UInt8
  dirent : KvDirent

structure KvDirectoryProjection where
  rootVersion : UInt64
  rootDirectoryId : FixedBytes 16
  directoryId : FixedBytes 16
  directory : KvDirectoryPair
  entries : List KvProjectedEntry

abbrev KvTree := List KvDirectoryProjection

abbrev DirectoryMap := Std.ExtTreeMap (FixedBytes 16) KvDirectoryProjection compare

def directoryMap (tree : KvTree) : DirectoryMap :=
  insertEach ∅ (tree.map fun directory => (directory.directoryId, directory))

/-- The directory of a tree with the given identifier. -/
def projectionOf (tree : KvTree) (id : FixedBytes 16) : Option KvDirectoryProjection :=
  tree.find? fun directory => directory.directoryId = id

def KvDirectoryProjection.entryNamed (projection : KvDirectoryProjection) (name : List UInt8) :
    Option KvProjectedEntry :=
  projection.entries.find? fun entry => entry.name = name

def KvDirectoryProjection.versions (projection : KvDirectoryProjection) : KvDirectoryVersion :=
  ⟨projection.directoryId, projection.directory.active.version,
    projection.entries.map fun entry => ⟨entry.dirent.id, entry.dirent.version⟩⟩

def kvVersionVector (rootVersion : UInt64) (directories : DirectoryMap) : KvPathVersionVector :=
  ⟨rootVersion, (sortedValues directories).map (·.versions)⟩

def kvVersionVectorFromTree (tree : KvTree) : KvPathVersionVector :=
  kvVersionVector ((tree.head?.map (·.rootVersion)).getD 0) (directoryMap tree)

/-! ## The search for a cycle -/

/-- The directories that the entries name. -/
def childDirectories : List KvProjectedEntry → Except Error (List (FixedBytes 16))
  | [] => .ok []
  | entry :: entries =>
    if entry.dirent.value.isDirectory then
      if !entry.readable then
        .error (.kvResponse "move source tree contains an inaccessible directory")
      else (childDirectories entries).map (entry.dirent.value.object :: ·)
    else childDirectories entries

def reachTargets (tree : KvTree) (id : FixedBytes 16) : Except Error (List (FixedBytes 16)) := do
  let directory ← okOr (.kvResponse "move source tree is incomplete") (directoryMap tree)[id]?
  childDirectories directory.entries

/-- How many entries each directory of the tree has. -/
def degrees (tree : KvTree) : List (FixedBytes 16 × Nat) :=
  tree.map fun directory => (directory.directoryId, directory.entries.length)

/-- A round for the start and for every entry of the tree. -/
def reachRounds (tree : KvTree) : Nat := 1 + unvisitedEdges [] (degrees tree)

variable {tree : KvTree} {projection : KvDirectoryProjection} {parent id : FixedBytes 16}
  {options : KvWriteOptions}

theorem mem_of_directoryMap {directory : KvDirectoryProjection}
    (h : (directoryMap tree)[id]? = some directory) :
    directory ∈ tree ∧ directory.directoryId = id := by
  rcases getElem?_insertEach_cases h with hpair | hempty
  · obtain ⟨_, hmem, heq⟩ := List.mem_map.mp hpair
    obtain ⟨rfl, rfl⟩ := Prod.mk.inj heq
    exact ⟨hmem, rfl⟩
  · simp at hempty

theorem length_childDirectories {entries : List KvProjectedEntry} {next : List (FixedBytes 16)}
    (h : childDirectories entries = .ok next) : next.length ≤ entries.length := by
  induction entries generalizing next with
  | nil =>
    cases h
    exact Nat.le_refl 0
  | cons entry entries ih =>
    rcases ite_eq_ok h with ⟨-, h⟩ | ⟨-, h⟩
    · obtain ⟨-, h⟩ := ite_error_eq_ok.mp h
      obtain ⟨rest, hrest, rfl⟩ := map_eq_ok.mp h
      exact Nat.succ_le_succ (ih hrest)
    · exact Nat.le_succ_of_le (ih h)

theorem reachTargets_degrees (tree : KvTree) (id : FixedBytes 16) (next : List (FixedBytes 16))
    (h : reachTargets tree id = .ok next) :
    ∃ degree, (id, degree) ∈ degrees tree ∧ next.length ≤ degree := by
  obtain ⟨directory, hdirectory, hnext⟩ := bind_eq_ok.mp h
  obtain ⟨hmem, rfl⟩ := mem_of_directoryMap (okOr_eq_ok.mp hdirectory)
  exact ⟨directory.entries.length, List.mem_map.mpr ⟨directory, hmem, rfl⟩,
    length_childDirectories hnext⟩

theorem reach_isSome (tree : KvTree) (root target : FixedBytes 16) :
    (search (reachTargets tree) target (reachRounds tree) [root] []).isSome = true :=
  search_isSome (reachTargets_degrees tree) (Nat.le_refl _)

/-- `kv_directory_reaches`: whether the directory contains the target, as far as the tree says. -/
def kvDirectoryReaches (tree : KvTree) (root target : FixedBytes 16) : Except Error Bool :=
  (search (reachTargets tree) target (reachRounds tree) [root] []).get
    (reach_isSome tree root target)

/-! ## Preparing entries -/

/-- What the keys of a session do. -/
structure KvKeys where
  openDirectorySeed : KvDirectory → Except Error (FixedBytes 32)
  sealKvDirentName : FixedBytes 32 → FixedBytes 16 → UInt64 → List UInt8 → FixedBytes 16 →
    Except Error (FixedBytes 32 × SecretBox)
  bindKvDirent : FixedBytes 32 → KvDirent → Except Error (FixedBytes 32)

/-- The random values and the time that go into a new entry. -/
structure KvDraws where
  direntId : FixedBytes 16
  nonce : FixedBytes 16
  now : UInt64

structure KvWriteOptions where
  readRole : Role
  writeRole : Role
  overwrite : Bool
  expectedVersion : Option UInt64

def validateKvComponent (name : List UInt8) : Except Error Unit :=
  if name = [] ∨ name.length > 255 ∨ (utf8Chars name).isNone ∨ 0 ∈ name ∨ 0x2f ∈ name ∨
      name = [0x2e] ∨ name = [0x2e, 0x2e] then
    .error (.kvRequest "invalid KV path component")
  else .ok ()

def protocol {α : Type} (x : Except Proto.Error α) : Except Error α := x.mapError .protocol

/-- Whether an entry of the old type may be replaced by one of the new type. -/
def mayOverwrite (old new : KvNodeType) : Bool :=
  (old = .file ∨ old = .smallFile) ∧ (new = .file ∨ new = .smallFile ∨ new = .symlink)

/-- The check of an entry that is there already. -/
def validateExisting (entry : KvProjectedEntry) (newType : KvNodeType) (options : KvWriteOptions)
    (unlink : Bool) : Except Error Unit := do
  let oldType ← protocol entry.dirent.value.nodeType
  if unlink ∨ oldType = .none then .ok ()
  else if !options.overwrite then .error (.kvResponse "KV entry already exists")
  else if !mayOverwrite oldType newType then .error (.kvResponse "incompatible KV overwrite")
  else .ok ()

def validateDirentPrecondition (tree : KvTree) (parent : FixedBytes 16) (name : List UInt8)
    (newType : KvNodeType) (options : KvWriteOptions) (unlink : Bool) : Except Error Unit := do
  let projection ← okOr (.kvResponse "parent directory is not in the verified cache")
    (projectionOf tree parent)
  let existing := projection.entryNamed name
  if unlink ∧ existing.isNone then .error (.kvResponse "cannot unlink a missing KV entry")
  else if options.expectedVersion.any fun expected =>
      (existing.map (·.dirent.version)).getD 0 ≠ expected then
    .error (.kvResponse "KV dirent version precondition failed")
  else
    match existing with
    | none => .ok ()
    | some entry => validateExisting entry newType options unlink

section

variable (keys : KvKeys)

def directorySeed (pair : KvDirectoryPair) (version : UInt64) : Except Error (FixedBytes 32) := do
  let directory ← okOr (.kvResponse "KV directory generation is unavailable")
    ((pair.active :: pair.encrypting.toList).find? fun directory => directory.version = version)
  keys.openDirectorySeed directory

/-- `bound_dirent`: the entry with the MAC that binds its fields. -/
def boundDirent (seed : FixedBytes 32) (dirent : KvDirent) : Except Error KvDirent := do
  let unbound ← protocol { dirent with bindingMac := .replicate 32 0 }.sealed
  let bindingMac ← keys.bindKvDirent seed unbound
  protocol { dirent with bindingMac }.sealed

/-- The next version of an entry. -/
def nextDirent (projection : KvDirectoryProjection) (old : KvDirent) (node : KvNodeId)
    (options : KvWriteOptions) : Except Error KvDirent := do
  let seed ← directorySeed keys projection.directory old.directoryVersion
  let version ← okOr (.kvResponse "KV dirent version overflow") (checkedAddU64 old.version 1)
  boundDirent keys seed { old with value := node, version, writeRole := options.writeRole }

variable (draws : KvDraws)

/-- The first version of an entry. -/
def firstDirent (projection : KvDirectoryProjection) (parent : FixedBytes 16) (name : List UInt8)
    (node : KvNodeId) (options : KvWriteOptions) : Except Error KvDirent := do
  let directory := projection.directory.encrypting.getD projection.directory.active
  let seed ← directorySeed keys projection.directory directory.version
  let sealed ← keys.sealKvDirentName seed parent directory.version name draws.nonce
  boundDirent keys seed ⟨parent, draws.direntId, node, 1, directory.version, options.writeRole,
    sealed.1, sealed.2, directory.status, .replicate 32 0, draws.now, []⟩

variable (tree : KvTree) (parent : FixedBytes 16) (name : List UInt8)

def prepareDirent (node : KvNodeId) (options : KvWriteOptions) (unlink : Bool) :
    Except Error KvDirent := do
  let newType ← protocol node.nodeType
  validateDirentPrecondition tree parent name newType options unlink
  let projection ← okOr (.kvResponse "parent directory is not in the verified cache")
    (projectionOf tree parent)
  match projection.entryNamed name with
  | some entry => nextDirent keys projection entry.dirent node options
  | none => firstDirent keys draws projection parent name node options

/-- The entry that was selected, unless it is another one or another version now. -/
def requireSelectedEntry (direntId : FixedBytes 16) (version : Option UInt64) :
    Except Error KvProjectedEntry := do
  let entry ← okOr (.kvResponse "KV dirent identity precondition failed")
    ((projectionOf tree parent).bind (·.entryNamed name))
  if entry.dirent.id ≠ direntId then .error (.kvResponse "KV dirent identity precondition failed")
  else if version.any fun version => entry.dirent.version ≠ version then
    .error (.kvResponse "KV dirent version precondition failed")
  else .ok entry

/-! ## The entries of a request -/

/-- What `link_uploaded_node_bound` submits: the entry of a node that was put before. -/
def linkUploadedNode (node : KvNodeId) (options : KvWriteOptions)
    (expectedDirentId : Option (FixedBytes 16)) : Except Error (List KvDirent) := do
  let _ ← expectedDirentId.mapM fun id =>
    requireSelectedEntry tree parent name id options.expectedVersion
  let dirent ← prepareDirent keys draws tree parent name node options false
  .ok [dirent]

/-- What `unlink_selected` submits. -/
def unlinkSelected (selectedId : FixedBytes 16) (expectedVersion : Option UInt64)
    (writeRole : Role) : Except Error (List KvDirent) := do
  validateKvComponent name
  let _ ← requireSelectedEntry tree parent name selectedId expectedVersion
  let dirent ← prepareDirent keys draws tree parent name .tombstone
    ⟨.none, writeRole, true, expectedVersion⟩ true
  .ok [dirent]

/-- A directory is not moved below itself. -/
def refuseCycle (source : KvNodeId) (destination : FixedBytes 16) : Except Error Unit := do
  let sourceType ← protocol source.nodeType
  if sourceType = .none then .error (.kvResponse "move source is tombstoned")
  else if sourceType = .directory then do
    let reaches ← kvDirectoryReaches tree source.object destination
    if reaches then .error (.kvRequest "cannot move a directory into itself") else .ok ()
  else .ok ()

/-- What `move_entry_selected` submits: the source is removed and the destination gets its node. -/
def moveEntrySelected (sourceParent : FixedBytes 16) (sourceName : List UInt8)
    (sourceId : FixedBytes 16) (sourceVersion : Option UInt64) (destinationParent : FixedBytes 16)
    (destinationName : List UInt8) (options : KvWriteOptions) : Except Error (List KvDirent) := do
  validateKvComponent sourceName
  validateKvComponent destinationName
  if sourceParent = destinationParent ∧ sourceName = destinationName then
    .error (.kvRequest "source and destination are identical")
  else do
    let sourceEntry ← requireSelectedEntry tree sourceParent sourceName sourceId sourceVersion
    let source := sourceEntry.dirent
    refuseCycle tree source.value destinationParent
    let sourceTombstone ← prepareDirent keys draws tree sourceParent sourceName .tombstone
      { options with expectedVersion := some source.version } true
    let destination ← prepareDirent keys draws tree destinationParent destinationName source.value
      options false
    .ok [sourceTombstone, destination]

end

/-- The check of `mkdir` before it makes the directory. -/
def planDirectory (tree : KvTree) (parent : FixedBytes 16) (name : List UInt8)
    (options : KvWriteOptions) : Except Error Unit := do
  validateKvComponent name
  validateDirentPrecondition tree parent name .directory options false

/-! ## What a plan relies on -/

/-- The tree says that the second directory is in the first. -/
def TreeEdge (tree : KvTree) (a b : FixedBytes 16) : Prop :=
  ∃ projection ∈ tree, projection.directoryId = a ∧
    ∃ entry ∈ projection.entries, entry.dirent.value = .directory b

/-- No directory was read twice. -/
def DistinctDirectories (tree : KvTree) : Prop := (tree.map (·.directoryId)).Nodup

theorem directoryMap_eq_some (hdistinct : DistinctDirectories tree) (hmem : projection ∈ tree) :
    (directoryMap tree)[projection.directoryId]? = some projection := by
  refine (getElem?_insertEach ?_ _ _).mpr (.inl (List.mem_map.mpr ⟨projection, hmem, rfl⟩))
  rw [List.map_map]
  exact hdistinct

theorem mem_childDirectories {entries : List KvProjectedEntry} {next : List (FixedBytes 16)}
    (h : childDirectories entries = .ok next) {entry : KvProjectedEntry} (hmem : entry ∈ entries)
    {child : FixedBytes 16} (hchild : entry.dirent.value = .directory child) : child ∈ next := by
  induction entries generalizing next with
  | nil => cases hmem
  | cons first entries ih =>
    rcases ite_eq_ok h with ⟨-, h⟩ | ⟨hfirst, h⟩
    · obtain ⟨-, h⟩ := ite_error_eq_ok.mp h
      obtain ⟨rest, hrest, rfl⟩ := map_eq_ok.mp h
      rcases List.mem_cons.mp hmem with rfl | hmem
      · rw [hchild]
        exact List.mem_cons_self
      · exact List.mem_cons_of_mem _ (ih hrest hmem)
    · rcases List.mem_cons.mp hmem with rfl | hmem
      · rw [hchild, KvNodeId.isDirectory_directory] at hfirst
        exact absurd rfl hfirst
      · exact ih h hmem

/-- If the search does not find the target, no path of the tree leads there. -/
theorem kvDirectoryReaches_eq_false (hdistinct : DistinctDirectories tree)
    {root target : FixedBytes 16} (h : kvDirectoryReaches tree root target = .ok false) :
    ¬ Relation.ReflTransGen (TreeEdge tree) root target := by
  have hsearch : search (reachTargets tree) target (reachRounds tree) [root] [] =
      some (.ok false) := by
    rw [← h]
    exact (Option.some_get _).symm
  obtain ⟨found, -, hqueue, hgoal, hclosed⟩ := search_eq_false hsearch (by simp)
  -- the search has followed every edge out of what it found
  have hfound (id : FixedBytes 16) (hpath : Relation.ReflTransGen (TreeEdge tree) root id) :
      id ∈ found := by
    induction hpath with
    | refl => exact hqueue List.mem_cons_self
    | tail _ hedge ih =>
      obtain ⟨projection, hmem, rfl, entry, hentry, hchild⟩ := hedge
      obtain ⟨next, hnext, hsub⟩ := hclosed _ ih
      obtain ⟨directory, hdirectory, hnext⟩ := bind_eq_ok.mp hnext
      have hlookup := okOr_eq_ok.mp hdirectory
      rw [directoryMap_eq_some hdistinct hmem] at hlookup
      cases hlookup
      exact hsub (mem_childDirectories hnext hentry hchild)
  exact fun hpath => hgoal (hfound target hpath)

theorem versions_mem_vector (hdistinct : DistinctDirectories tree) (hmem : projection ∈ tree) :
    projection.versions ∈ (kvVersionVectorFromTree tree).directories :=
  List.mem_map.mpr ⟨projection,
    mem_sortedValues.mpr ⟨_, directoryMap_eq_some hdistinct hmem⟩, rfl⟩

theorem mem_of_projectionOf (h : projectionOf tree id = some projection) :
    projection ∈ tree ∧ projection.directoryId = id :=
  ⟨List.mem_of_find?_eq_some h, by simpa using List.find?_some h⟩

variable {keys : KvKeys}

theorem boundDirent_eq_ok {seed : FixedBytes 32} {dirent bound : KvDirent}
    (h : boundDirent keys seed dirent = .ok bound) :
    bound.IsSealed ∧ ∃ bindingMac exact, bound = { dirent with bindingMac, exact } := by
  obtain ⟨_, -, h⟩ := bind_eq_ok.mp h
  obtain ⟨bindingMac, -, h⟩ := bind_eq_ok.mp h
  obtain ⟨hsealed, exact, rfl⟩ := KvDirent.sealed_eq_ok (mapError_eq_ok.mp h)
  exact ⟨hsealed, bindingMac, exact, rfl⟩

/-- The place of a prepared entry is that of the entry of its name, if the tree has one, and in the
    directory asked for otherwise. -/
structure Prepared (tree : KvTree) (parent : FixedBytes 16) (name : List UInt8) (node : KvNodeId)
    (dirent : KvDirent) : Prop where
  isSealed : dirent.IsSealed
  value : dirent.value = node
  place : ∃ projection, projectionOf tree parent = some projection ∧
    (projection.entryNamed name = none ∧ dirent.parent = parent ∨
      ∃ entry, projection.entryNamed name = some entry ∧ dirent.parent = entry.dirent.parent ∧
        dirent.id = entry.dirent.id)

variable {name : List UInt8} {draws : KvDraws}

theorem prepareDirent_eq_ok {node : KvNodeId} {unlink : Bool} {dirent : KvDirent}
    (h : prepareDirent keys draws tree parent name node options unlink = .ok dirent) :
    Prepared tree parent name node dirent := by
  obtain ⟨_, -, h⟩ := bind_eq_ok.mp h
  obtain ⟨_, -, h⟩ := bind_eq_ok.mp h
  obtain ⟨projection, hprojection, h⟩ := bind_eq_ok.mp h
  have hfind := okOr_eq_ok.mp hprojection
  cases hentry : projection.entryNamed name with
  | some entry =>
    rw [hentry] at h
    obtain ⟨_, -, h⟩ := bind_eq_ok.mp h
    obtain ⟨_, -, h⟩ := bind_eq_ok.mp h
    obtain ⟨hsealed, _, _, rfl⟩ := boundDirent_eq_ok h
    exact ⟨hsealed, rfl, projection, hfind, .inr ⟨entry, hentry, rfl, rfl⟩⟩
  | none =>
    rw [hentry] at h
    obtain ⟨_, -, h⟩ := bind_eq_ok.mp h
    obtain ⟨_, -, h⟩ := bind_eq_ok.mp h
    obtain ⟨hsealed, _, _, rfl⟩ := boundDirent_eq_ok h
    exact ⟨hsealed, rfl, projection, hfind, .inl ⟨hentry, rfl⟩⟩

variable {dirents : List KvDirent}

theorem linkUploadedNode_eq_ok {node : KvNodeId} {expectedDirentId : Option (FixedBytes 16)}
    (h : linkUploadedNode keys draws tree parent name node options expectedDirentId =
      .ok dirents) : ∃ dirent, dirents = [dirent] ∧ Prepared tree parent name node dirent := by
  obtain ⟨_, -, h⟩ := bind_eq_ok.mp h
  obtain ⟨dirent, hdirent, h⟩ := bind_eq_ok.mp h
  cases h
  exact ⟨dirent, rfl, prepareDirent_eq_ok hdirent⟩

theorem unlinkSelected_eq_ok {selectedId : FixedBytes 16} {expectedVersion : Option UInt64}
    {writeRole : Role}
    (h : unlinkSelected keys draws tree parent name selectedId expectedVersion writeRole =
      .ok dirents) :
    ∃ dirent, dirents = [dirent] ∧ Prepared tree parent name .tombstone dirent := by
  obtain ⟨_, -, h⟩ := bind_eq_ok.mp h
  obtain ⟨_, -, h⟩ := bind_eq_ok.mp h
  obtain ⟨dirent, hdirent, h⟩ := bind_eq_ok.mp h
  cases h
  exact ⟨dirent, rfl, prepareDirent_eq_ok hdirent⟩

theorem requireSelectedEntry_eq_ok {direntId : FixedBytes 16} {version : Option UInt64}
    {entry : KvProjectedEntry}
    (h : requireSelectedEntry tree parent name direntId version = .ok entry) :
    ∃ projection, projectionOf tree parent = some projection ∧
      projection.entryNamed name = some entry := by
  obtain ⟨found, hfound, h⟩ := bind_eq_ok.mp h
  obtain ⟨-, h⟩ := ite_error_eq_ok.mp h
  obtain ⟨-, h⟩ := ite_error_eq_ok.mp h
  cases h
  exact Option.bind_eq_some_iff.mp (okOr_eq_ok.mp hfound)

theorem refuseCycle_eq_ok {source : KvNodeId} {destination : FixedBytes 16}
    (h : refuseCycle tree source destination = .ok ()) {child : FixedBytes 16}
    (hchild : source = .directory child) :
    kvDirectoryReaches tree child destination = .ok false := by
  subst hchild
  obtain ⟨kind, hkind, h⟩ := bind_eq_ok.mp h
  have hdirectory : kind = .directory := by
    have htype := mapError_eq_ok.mp hkind
    exact (Except.ok.inj htype).symm
  obtain ⟨-, h⟩ := ite_error_eq_ok.mp h
  rw [if_pos hdirectory] at h
  obtain ⟨reaches, hreaches, h⟩ := bind_eq_ok.mp h
  obtain ⟨hfalse, -⟩ := ite_error_eq_ok.mp h
  rw [Bool.not_eq_true] at hfalse
  rw [← hfalse]
  exact hreaches

/-- A move removes the source and puts its node at the destination, which the source, if it is a
    directory, does not reach. -/
theorem moveEntrySelected_eq_ok {sourceParent : FixedBytes 16} {sourceName : List UInt8}
    {sourceId : FixedBytes 16} {sourceVersion : Option UInt64} {destinationParent : FixedBytes 16}
    {destinationName : List UInt8}
    (h : moveEntrySelected keys draws tree sourceParent sourceName sourceId sourceVersion
      destinationParent destinationName options = .ok dirents) :
    ∃ removed placed projection entry, dirents = [removed, placed] ∧
      projectionOf tree sourceParent = some projection ∧
      projection.entryNamed sourceName = some entry ∧
      Prepared tree sourceParent sourceName .tombstone removed ∧
      Prepared tree destinationParent destinationName entry.dirent.value placed ∧
      ∀ child, entry.dirent.value = .directory child →
        kvDirectoryReaches tree child destinationParent = .ok false := by
  obtain ⟨_, -, h⟩ := bind_eq_ok.mp h
  obtain ⟨_, -, h⟩ := bind_eq_ok.mp h
  obtain ⟨-, h⟩ := ite_error_eq_ok.mp h
  obtain ⟨entry, hentry, h⟩ := bind_eq_ok.mp h
  obtain ⟨_, hcycle, h⟩ := bind_eq_ok.mp h
  obtain ⟨removed, hremoved, h⟩ := bind_eq_ok.mp h
  obtain ⟨placed, hplaced, h⟩ := bind_eq_ok.mp h
  cases h
  obtain ⟨projection, hprojection, hnamed⟩ := requireSelectedEntry_eq_ok hentry
  exact ⟨removed, placed, projection, entry, rfl, hprojection, hnamed,
    prepareDirent_eq_ok hremoved, prepareDirent_eq_ok hplaced, fun _ => refuseCycle_eq_ok hcycle⟩

end Foks.Client
