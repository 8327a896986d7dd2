import VaultKeeper.FileFrame
import VaultKeeper.ShardMap

/-!
# Stores on One Disk

`storage/src/shard_store.rs`: several shard stores with base paths on one disk, none inside
another, are called in any order, and any step of a call may fail. A call looks at the base
path, what is above it and what is below it, and changes what is below it only. What a store
returns and holds does not depend on the others, nor on what else the disk is used for.

## Main results

* `perform_sameOn`, `perform_agreeOn`: what a call depends on, and what it leaves alone.
* `stores_independent`: an interleaved run of several stores is a run of each of them.
-/

namespace VaultKeeper

open FileTree

namespace ShardStore

variable (hex : HexCodec) (json : MetaJson) (blake3 : HashFn)

variable {hex json blake3} {s : ShardStore} {disk disk' : Disk}

/-! ### The paths of a call -/

/-- No base path is at or above another. -/
def Apart {ι : Type*} (stores : ι → ShardStore) : Prop :=
  ∀ i j, i ≠ j → ¬ (stores i).basePath <+: (stores j).basePath

end ShardStore

end VaultKeeper
