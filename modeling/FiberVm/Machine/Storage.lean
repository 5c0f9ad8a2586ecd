/-!
# Storage for stacks

A stack lives in a block of storage. When the block is full its entries move to a larger one. Small
stacks double their block, large ones grow by about a quarter, and blocks come in certain sizes
only.
-/

set_option autoImplicit false

namespace FiberVm.Storage

/-- The sizes of small blocks in entries, ascending. -/
def blockSizes : List Nat :=
  [2, 4, 6, 8, 12, 16, 20, 24, 28, 32, 36, 40, 44, 48, 52, 56, 60, 64, 72, 80, 88, 96, 104, 112,
   120, 128, 144, 160, 176, 192, 224, 256, 288, 320, 352, 384, 448, 512, 576, 672, 768, 800, 864,
   1024, 1216, 1280, 1344, 1536, 1632, 1696, 1728, 2048, 2368, 2432, 2560, 2720, 3072, 3392, 3584, 4096,
   4608, 4768, 5120, 5440, 6144, 6816, 7168, 8192]

/-- Large blocks are multiples of this many entries. -/
def pageSize : Nat := 2048

/-- The size of the smallest block with room for `n` entries. -/
def blockFor (n : Nat) : Nat :=
  match blockSizes.find? (fun size => n ≤ size) with
  | some size => size
  | none => (n + (pageSize - 1)) / pageSize * pageSize

/-- The size of the block that takes over from a full one of the given size. -/
def grown (full : Nat) : Nat :=
  blockFor (if full = 0 then 1 else if full < 256 then 2 * full else full + (full + 768) / 4)

end FiberVm.Storage
