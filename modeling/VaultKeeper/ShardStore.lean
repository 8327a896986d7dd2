import VaultKeeper.FileTree
import VaultKeeper.ShardMeta

/-!
# The Shard Store

`storage/src/shard_store.rs`: the shards of a node on its disk. A chunk has a directory
under the base path, named by its identifier in hex, and a shard has two files in it, its
data and its metadata. The disk is an argument and a result of every operation, with the
fault that befalls the operation and the two readings of the clock that a store makes.

`Path::exists()` answers truly here. In the program it says no as well where the path cannot be
looked up, so that a delete may succeed and remove nothing; such deletes are left out.

## Main results

* `shardPath_inj`, `metaPath_inj`, `shardPath_ne_metaPath`: no two files share a path.
-/

namespace VaultKeeper

open FileTree

/-- A disk: paths are lists of names, and files hold bytes. -/
abbrev Disk := FileTree.Tree String UInt8

/-- Shard storage on local disk. -/
structure ShardStore where
  basePath : List String
deriving DecidableEq

/-- What an operation of the store fails with. -/
inductive ShardError
  | io (context : Option String) (e : IoError)
  | notUtf8
  | json (e : String)
  | bail (message : String)
deriving DecidableEq

/-- The step of `store_shard` that fails. -/
inductive StoreFault
  | createDir (made : ℕ)
  | writeShard (fault : WriteFault)
  | writeMeta (fault : WriteFault)
deriving DecidableEq

/-- The step of `delete_shard` that fails. Its questions whether a file exists are not among
them. -/
inductive DeleteFault
  | removeShard
  | removeMeta
deriving DecidableEq

/-- The fault of making the directory. -/
def StoreFault.inCreateDir : Option StoreFault → Option ℕ
  | some (.createDir made) => some made
  | _ => none

/-- The fault of writing the shard file. -/
def StoreFault.inWriteShard : Option StoreFault → Option WriteFault
  | some (.writeShard fault) => some fault
  | _ => none

/-- The fault of writing the metadata file. -/
def StoreFault.inWriteMeta : Option StoreFault → Option WriteFault
  | some (.writeMeta fault) => some fault
  | _ => none

/-- `path.display()`. -/
def display (p : List String) : String :=
  "/".intercalate p

/-- Remove a file when there is one. -/
def removeExisting (disk : Disk) (p : List String) (fault : Bool) : Except IoError Unit × Disk :=
  if pathExists disk p then removeFile disk p fault else (.ok (), disk)

/-- The bytes of metadata read as a record. -/
def parseMeta (json : MetaJson) (bytes : Bytes) : Except ShardError ShardMeta :=
  match readUtf8 bytes with
  | none => .error .notUtf8
  | some text =>
      match json.fromStr text with
      | .error e => .error (.json e)
      | .ok record => .ok record

namespace ShardStore

variable (hex : HexCodec) (json : MetaJson) (blake3 : HashFn)

/-! ### Operations -/

/-- Create a new shard store at the given base path. -/
def new (basePath : List String) (fault : Option ℕ) (disk : Disk) :
    Except ShardError ShardStore × Disk :=
  match createDirAll disk basePath fault with
  | (.error e, disk) =>
      (.error (.io (some ("Failed to create shard store directory: " ++ display basePath)) e), disk)
  | (.ok (), disk) => (.ok ⟨basePath⟩, disk)

def chunkDirectory (s : ShardStore) (chunkId : ChunkId) : List String :=
  s.basePath ++ [chunkId.asHex hex]

/-- The name of a shard file. -/
def shardName (i : ShardIndex) : String :=
  "shard_" ++ toString i.val ++ ".bin"

/-- The name of a metadata file. -/
def metaName (i : ShardIndex) : String :=
  "shard_" ++ toString i.val ++ ".meta.json"

def shardPath (s : ShardStore) (chunkId : ChunkId) (i : ShardIndex) : List String :=
  s.chunkDirectory hex chunkId ++ [shardName i]

def metaPath (s : ShardStore) (chunkId : ChunkId) (i : ShardIndex) : List String :=
  s.chunkDirectory hex chunkId ++ [metaName i]

/-- The metadata of a shard that is stored. -/
def newMeta (chunkId : ChunkId) (i : ShardIndex) (data : Bytes)
    (createdAt lastVerified : String) : ShardMeta where
  chunkId := chunkId.asHex hex
  shardIndex := i.val
  size := UInt64.ofNat data.length
  blake3Hash := hex.encode (blake3 data).bytes
  createdAt := createdAt
  lastVerified := lastVerified

def saveMeta (s : ShardStore) (chunkId : ChunkId) (i : ShardIndex) (record : ShardMeta)
    (fault : Option WriteFault) (disk : Disk) : Except ShardError Unit × Disk :=
  match write disk (s.metaPath hex chunkId i) (utf8 (json.toStringPretty record)) fault with
  | (.error e, disk) => (.error (.io none e), disk)
  | (.ok (), disk) => (.ok (), disk)

def loadMeta (s : ShardStore) (chunkId : ChunkId) (i : ShardIndex) (disk : Disk) :
    Except ShardError ShardMeta :=
  match FileTree.read disk (s.metaPath hex chunkId i) with
  | .error e => .error (.io none e)
  | .ok bytes => parseMeta json bytes

/-- Store a shard to disk. -/
def storeShard (s : ShardStore) (chunkId : ChunkId) (i : ShardIndex) (data : Bytes)
    (createdAt lastVerified : String) (fault : Option StoreFault) (disk : Disk) :
    Except ShardError ShardMeta × Disk :=
  match createDirAll disk (s.chunkDirectory hex chunkId) (StoreFault.inCreateDir fault) with
  | (.error e, disk) => (.error (.io none e), disk)
  | (.ok (), disk) =>
      let shardPath := s.shardPath hex chunkId i
      match write disk shardPath data (StoreFault.inWriteShard fault) with
      | (.error e, disk) =>
          (.error (.io (some ("Failed to write shard: " ++ display shardPath)) e), disk)
      | (.ok (), disk) =>
          let record := newMeta hex blake3 chunkId i data createdAt lastVerified
          match s.saveMeta hex json chunkId i record (StoreFault.inWriteMeta fault) disk with
          | (.error e, disk) => (.error e, disk)
          | (.ok (), disk) => (.ok record, disk)

/-- Retrieve a shard from disk. -/
def retrieveShard (s : ShardStore) (chunkId : ChunkId) (i : ShardIndex) (disk : Disk) :
    Except ShardError Bytes :=
  let shardPath := s.shardPath hex chunkId i
  match FileTree.read disk shardPath with
  | .error e => .error (.io (some ("Shard not found: " ++ display shardPath)) e)
  | .ok data =>
      match s.loadMeta hex json chunkId i disk with
      | .error e => .error e
      | .ok record =>
          if hex.encode (blake3 data).bytes ≠ record.blake3Hash then
            .error (.bail ("Shard integrity check failed for " ++ chunkId.asHex hex ++ ":" ++
              toString i.val))
          else .ok data

/-- Delete a shard from disk. -/
def deleteShard (s : ShardStore) (chunkId : ChunkId) (i : ShardIndex)
    (fault : Option DeleteFault) (disk : Disk) : Except ShardError Unit × Disk :=
  match removeExisting disk (s.shardPath hex chunkId i) (fault = some .removeShard) with
  | (.error e, disk) => (.error (.io none e), disk)
  | (.ok (), disk) =>
      match removeExisting disk (s.metaPath hex chunkId i) (fault = some .removeMeta) with
      | (.error e, disk) => (.error (.io none e), disk)
      | (.ok (), disk) => (.ok (), disk)

/-- Check if a shard exists. -/
def shardExists (s : ShardStore) (chunkId : ChunkId) (i : ShardIndex) (disk : Disk) : Bool :=
  pathExists disk (s.shardPath hex chunkId i)

/-- Get all chunk IDs stored. -/
def listChunks (s : ShardStore) (disk : Disk) : Except ShardError (List ChunkId) :=
  if ¬ pathExists disk s.basePath then .ok []
  else
    match readDir disk s.basePath with
    | .error e => .error (.io none e)
    | .ok listing => .ok (listing.filterMap fun entry =>
        if entry.2 then (ChunkId.fromHex hex entry.1).toOption else none)

/-! ### Paths -/

theorem toString_injective {a b : UInt64} (h : (toString a).toList = (toString b).toList) :
    a = b := by
  have hvalue : ∀ n : UInt64, Nat.ofDigitChars 10 (toString n).toList 0 = n.toNat := fun n => by
    rw [show (toString n).toList = Nat.toDigits 10 n.toNat from Nat.toList_repr]
    exact Nat.ofDigitChars_toDigits (by decide) (by decide)
  exact UInt64.toNat_inj.mp ((hvalue a).symm.trans (h ▸ hvalue b))

/-- A name tells the number in it. -/
theorem numbered_inj {ending : String} {i j : ShardIndex}
    (h : "shard_" ++ toString i.val ++ ending = "shard_" ++ toString j.val ++ ending) : i = j := by
  have hlist := congrArg String.toList h
  simp only [String.toList_append, List.append_assoc] at hlist
  have hdigits := List.append_cancel_right (List.append_cancel_left hlist)
  cases i
  cases j
  exact congrArg ShardIndex.mk (toString_injective hdigits)

theorem shardName_injective : Function.Injective shardName :=
  fun _ _ => numbered_inj

theorem metaName_injective : Function.Injective metaName :=
  fun _ _ => numbered_inj

/-- The two kinds of files end in different letters. -/
theorem shardName_ne_metaName (i j : ShardIndex) : shardName i ≠ metaName j := by
  intro h
  have hreverse := congrArg (fun name => name.toList.reverse) h
  simp [shardName, metaName] at hreverse

variable {hex}

theorem chunkDirectory_inj {s : ShardStore} {c d : ChunkId} :
    s.chunkDirectory hex c = s.chunkDirectory hex d ↔ c = d := by
  simp [chunkDirectory, (ChunkId.asHex_injective hex).eq_iff]

theorem shardPath_inj {s : ShardStore} {c d : ChunkId} {i j : ShardIndex} :
    s.shardPath hex c i = s.shardPath hex d j ↔ c = d ∧ i = j := by
  simp [shardPath, chunkDirectory, (ChunkId.asHex_injective hex).eq_iff,
    shardName_injective.eq_iff]

theorem metaPath_inj {s : ShardStore} {c d : ChunkId} {i j : ShardIndex} :
    s.metaPath hex c i = s.metaPath hex d j ↔ c = d ∧ i = j := by
  simp [metaPath, chunkDirectory, (ChunkId.asHex_injective hex).eq_iff,
    metaName_injective.eq_iff]

theorem shardPath_ne_metaPath (hex : HexCodec) (s : ShardStore) (c d : ChunkId) (i j : ShardIndex) :
    s.shardPath hex c i ≠ s.metaPath hex d j := by
  simp [shardPath, metaPath, chunkDirectory, shardName_ne_metaName]

theorem shardPath_ne_chunkDirectory (hex : HexCodec) (s : ShardStore) (c d : ChunkId)
    (i : ShardIndex) : s.shardPath hex c i ≠ s.chunkDirectory hex d := by
  simp [shardPath, chunkDirectory]

theorem metaPath_ne_chunkDirectory (hex : HexCodec) (s : ShardStore) (c d : ChunkId)
    (i : ShardIndex) : s.metaPath hex c i ≠ s.chunkDirectory hex d := by
  simp [metaPath, chunkDirectory]

theorem dropLast_shardPath (s : ShardStore) (c : ChunkId) (i : ShardIndex) :
    (s.shardPath hex c i).dropLast = s.chunkDirectory hex c :=
  List.dropLast_concat

theorem dropLast_metaPath (s : ShardStore) (c : ChunkId) (i : ShardIndex) :
    (s.metaPath hex c i).dropLast = s.chunkDirectory hex c :=
  List.dropLast_concat

end ShardStore

end VaultKeeper
