import Mathlib.Data.List.AList
import Mathlib.Data.List.Infix

/-!
# File Trees

A file system as a map from paths, lists of names, to directories and files. Every operation
that changes the tree has the fault that befalls it as an argument: without one it does what
it is asked for, or reports why it cannot; with one it fails, having done a part of it. A
write that fails may have cut the file to any prefix of what it was to hold.

## Main results

* `createDirs_of_noFile`: what is found after directories were made.
* `exists_write`: what a write returns and leaves, with or without a fault.
* `mem_readDir_iff`, `readDir_nodup`: a listing has what is in the directory, once.
-/

namespace FileTree

variable {ν β : Type*} [DecidableEq ν]

/-- What is found at a path. -/
inductive Node (β : Type*)
  | dir
  | file (content : List β)
deriving DecidableEq

/-- Whether a node is a directory. -/
def Node.isDir : Node β → Bool
  | .dir => true
  | .file _ => false

/-- The nodes of a file system by their paths. -/
abbrev Tree (ν β : Type*) := AList fun _ : List ν => Node β

/-- Why an operation failed. -/
inductive IoError
  | notFound
  | notADirectory
  | isADirectory
  | failed
deriving DecidableEq

/-- What befalls a write: the file was not opened, or cut to a part of its content. -/
inductive WriteFault
  | notOpened
  | cutShort (written : ℕ)
deriving DecidableEq

/-- What a write that was to leave a content leaves of it, when it leaves anything. -/
def written (content : List β) : Option WriteFault → Option (List β)
  | none => some content
  | some .notOpened => none
  | some (.cutShort n) => some (content.take n)

/-- Whether there is anything at a path. -/
def pathExists (t : Tree ν β) (p : List ν) : Bool :=
  (t.lookup p).isSome

/-- Make the directories of a list that are missing, up to a path that is a file. -/
def createDirs (t : Tree ν β) : List (List ν) → Except IoError Unit × Tree ν β
  | [] => (.ok (), t)
  | p :: ps =>
      match t.lookup p with
      | some (.file _) => (.error .notADirectory, t)
      | some .dir => createDirs t ps
      | none => createDirs (t.insert p .dir) ps

/-- Make a directory with all above it; with a fault, the first ones of these. -/
def createDirAll (t : Tree ν β) (p : List ν) (fault : Option ℕ) : Except IoError Unit × Tree ν β :=
  match fault with
  | none => createDirs t p.inits
  | some made => (.error .failed, (createDirs t (p.inits.take made)).2)

/-- Write a file as a whole, in a directory that exists. -/
def write (t : Tree ν β) (p : List ν) (content : List β) (fault : Option WriteFault) :
    Except IoError Unit × Tree ν β :=
  match t.lookup p.dropLast, t.lookup p with
  | none, _ => (.error .notFound, t)
  | some (.file _), _ => (.error .notADirectory, t)
  | some .dir, some .dir => (.error .isADirectory, t)
  | some .dir, _ =>
      match fault with
      | none => (.ok (), t.insert p (.file content))
      | some .notOpened => (.error .failed, t)
      | some (.cutShort written) => (.error .failed, t.insert p (.file (content.take written)))

/-- Read a file as a whole. -/
def read (t : Tree ν β) (p : List ν) : Except IoError (List β) :=
  match t.lookup p with
  | some (.file content) => .ok content
  | some .dir => .error .isADirectory
  | none => .error .notFound

/-- Remove a file. -/
def removeFile (t : Tree ν β) (p : List ν) (fault : Bool) : Except IoError Unit × Tree ν β :=
  match t.lookup p with
  | none => (.error .notFound, t)
  | some .dir => (.error .isADirectory, t)
  | some (.file _) => if fault then (.error .failed, t) else (.ok (), t.erase p)

/-- The name of a path in a directory, when it is one of its own. -/
def childName (p q : List ν) : Option ν :=
  if q.dropLast = p then q.getLast? else none

/-- The names in a directory, each with whether it is a directory itself. -/
def readDir (t : Tree ν β) (p : List ν) : Except IoError (List (ν × Bool)) :=
  match t.lookup p with
  | none => .error .notFound
  | some (.file _) => .error .notADirectory
  | some .dir => .ok (t.entries.filterMap fun e =>
      (childName p e.1).map fun name => (name, e.2.isDir))

/-! ### Directories -/

/-- No path of a list is a file. -/
def NoFile (t : Tree ν β) (ps : List (List ν)) : Prop :=
  ∀ p ∈ ps, ∀ content, t.lookup p ≠ some (.file content)

/-- When no path of the list is a file they all become directories, and nothing else changes. -/
theorem createDirs_of_noFile {t : Tree ν β} {ps : List (List ν)} (h : NoFile t ps) :
    (createDirs t ps).1 = .ok () ∧
      ∀ q, (createDirs t ps).2.lookup q = if q ∈ ps then some .dir else t.lookup q := by
  induction ps generalizing t with
  | nil => simp [createDirs]
  | cons p ps ih =>
      rw [NoFile, List.forall_mem_cons] at h
      rw [createDirs]
      split
      · next content hp => exact absurd hp (h.1 content)
      · next hp =>
        obtain ⟨hok, hlookup⟩ := ih h.2
        refine ⟨hok, fun q => ?_⟩
        rw [hlookup q]
        by_cases hq : q = p
        · subst hq
          simp [hp]
        · simp [hq]
      · next hp =>
        have hrest : NoFile (t.insert p .dir) ps := by
          intro q hq content
          by_cases hqp : q = p
          · subst hqp
            simp
          · rw [AList.lookup_insert_ne hqp]
            exact h.2 q hq content
        obtain ⟨hok, hlookup⟩ := ih hrest
        refine ⟨hok, fun q => ?_⟩
        rw [hlookup q]
        by_cases hq : q = p
        · subst hq
          simp
        · simp [hq, AList.lookup_insert_ne hq]

/-- Directories are made only where no path is a file. -/
theorem noFile_of_createDirs {t : Tree ν β} {ps : List (List ν)}
    (h : (createDirs t ps).1 = .ok ()) : NoFile t ps := by
  induction ps generalizing t with
  | nil => simp [NoFile]
  | cons p ps ih =>
      rw [createDirs] at h
      rw [NoFile, List.forall_mem_cons]
      split at h
      · cases h
      · next hp => exact ⟨by simp [hp], ih h⟩
      · next hp =>
        refine ⟨by simp [hp], fun q hq content hfile => ?_⟩
        have hqp : q ≠ p := by
          rintro rfl
          rw [hp] at hfile
          cases hfile
        exact ih h q hq content ((AList.lookup_insert_ne hqp).trans hfile)

/-! ### Files -/

/-- What is read is what is found. -/
theorem read_eq_ok_iff {t : Tree ν β} {p : List ν} {content : List β} :
    read t p = .ok content ↔ t.lookup p = some (.file content) := by
  rw [read]
  split <;> simp_all

theorem read_congr {t t' : Tree ν β} {p : List ν} (h : t'.lookup p = t.lookup p) :
    read t' p = read t p := by
  rw [read, read, h]

/-- Where a file may have been written, what was written is read. -/
theorem toOption_read_or {t t' : Tree ν β} {p : List ν} {new : Option (List β)}
    (h : t'.lookup p = (new.map Node.file).or (t.lookup p)) :
    (read t' p).toOption = new.or (read t p).toOption := by
  cases new with
  | none => rw [read_congr h, Option.none_or]
  | some content =>
      rw [Option.some_or, read_eq_ok_iff.mpr h]
      rfl

/-- In a directory, and where no directory is, a write fails by its fault only. It leaves what
it has written, and changes nothing else. -/
theorem exists_write {t : Tree ν β} {p : List ν} (hdir : t.lookup p.dropLast = some .dir)
    (hp : t.lookup p ≠ some .dir) (content : List β) (fault : Option WriteFault) :
    ∃ t', write t p content fault = (if fault = none then .ok () else .error .failed, t') ∧
      t'.lookup p = ((written content fault).map Node.file).or (t.lookup p) ∧
      ∀ q, q ≠ p → t'.lookup q = t.lookup q := by
  have hwrite : write t p content fault =
      match fault with
      | none => (.ok (), t.insert p (.file content))
      | some .notOpened => (.error .failed, t)
      | some (.cutShort n) => (.error .failed, t.insert p (.file (content.take n))) := by
    rw [write.eq_def, hdir]
    cases hlookup : t.lookup p with
    | none => rfl
    | some node =>
        cases node with
        | dir => exact absurd hlookup hp
        | file old => rfl
  have hinsert : ∀ bytes, (t.insert p (.file bytes)).lookup p = some (.file bytes) ∧
      ∀ q, q ≠ p → (t.insert p (.file bytes)).lookup q = t.lookup q := fun bytes =>
    ⟨AList.lookup_insert t, fun q hq => AList.lookup_insert_ne hq⟩
  rw [hwrite]
  cases fault with
  | none => exact ⟨_, rfl, hinsert content⟩
  | some fault =>
      cases fault with
      | notOpened => exact ⟨t, rfl, rfl, fun q _ => rfl⟩
      | cutShort n => exact ⟨_, rfl, hinsert _⟩

/-- What is found after a file was removed. -/
theorem lookup_erase_ite (t : Tree ν β) (p q : List ν) :
    (t.erase p).lookup q = if q = p then none else t.lookup q := by
  by_cases hq : q = p
  · subst hq
    simp
  · rw [if_neg hq, AList.lookup_erase_ne hq]

/-! ### Listings -/

theorem childName_eq_some {p q : List ν} {name : ν} :
    childName p q = some name ↔ q = p ++ [name] := by
  rw [childName]
  constructor
  · intro h
    split_ifs at h with hp
    rw [List.getLast?_eq_some_iff] at h
    obtain ⟨r, rfl⟩ := h
    rw [List.dropLast_concat] at hp
    rw [hp]
  · rintro rfl
    rw [List.dropLast_concat, if_pos rfl, List.getLast?_concat]

variable {t : Tree ν β} {p : List ν} {listing : List (ν × Bool)}

/-- A listing of a directory has the names in it, with whether they are directories. -/
theorem mem_readDir_iff (h : readDir t p = .ok listing) {name : ν} {isDir : Bool} :
    (name, isDir) ∈ listing ↔
      ∃ node : Node β, t.lookup (p ++ [name]) = some node ∧ node.isDir = isDir := by
  rw [readDir] at h
  split at h <;> cases h
  rw [List.mem_filterMap]
  constructor
  · rintro ⟨⟨q, node⟩, hmem, hname⟩
    rw [Option.map_eq_some_iff] at hname
    obtain ⟨_, hchild, heq⟩ := hname
    cases heq
    rw [childName_eq_some] at hchild
    obtain rfl := hchild
    exact ⟨node, AList.mem_lookup_iff.mpr hmem, rfl⟩
  · rintro ⟨node, hlookup, rfl⟩
    exact ⟨⟨p ++ [name], node⟩, AList.mem_lookup_iff.mp hlookup, by
      rw [childName_eq_some.mpr rfl, Option.map_some]⟩

/-- It has no name twice. -/
theorem readDir_nodup (h : readDir t p = .ok listing) : (listing.map Prod.fst).Nodup := by
  rw [readDir] at h
  split at h <;> cases h
  have hnames : (t.entries.filterMap fun e : Sigma fun _ : List ν => Node β =>
      (childName p e.1).map fun name => (name, e.2.isDir)).map Prod.fst =
      t.keys.filterMap (childName p) := by
    rw [List.map_filterMap, AList.keys, List.keys, List.filterMap_map]
    refine List.filterMap_congr fun e _ => ?_
    simp [Function.comp_def]
  rw [hnames]
  refine t.keys_nodup.filterMap fun q q' name hq hq' => ?_
  rw [childName_eq_some.mp hq, childName_eq_some.mp hq']

end FileTree
