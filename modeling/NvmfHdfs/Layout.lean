/-
  The on-disk layout of `hdfslowfs.h`:

    |-- superblock --|-- bitmap --|-- block_info --|-- extra info --|-- slot 0 --|-- slot 1 ...

  The macros are evaluated as the compiler does: `ceil(n)` is `((int)n+1)`, so
  inside `BITMAP_SIZE` and its siblings the cast applies to `(devsize-512)`
  alone, before the division by the slot cost.  A conversion from `double` to
  `int` and an `int` product are undefined (`none`) past the range of `int`.
  The double quotients are exact: they divide by a power of two what is below
  `2 ^ 53`, or else is past the range of `int` in any case.
-/
import NvmfHdfs.Lib.CInt

namespace Layout

open CInt

/-! ## Sizes -/

/-- `sizeof(struct super_block)`: 516 bytes of fields, aligned to 8. -/
def sizeofSuperBlock : ℕ := 520

/-- `sizeof(struct block_info)`: 28 bytes of fields, aligned to 8. -/
def sizeofBlockInfo : ℕ := 32

/-- `sizeof(struct block_extra_info)`, a path of `PATH_MAX` bytes. -/
def sizeofBlockExtraInfo : ℕ := 4096

/-- `MB_SIZE`. -/
def mbSize : ℕ := 1024 * 1024

/-- `BLOCK_INFO_SIZE`. -/
def blockInfoSize : ℕ := 1 + sizeofBlockInfo + sizeofBlockExtraInfo

/-- `BITMAP_OFFSET`. -/
def bitmapOffset : ℕ := sizeofSuperBlock

/-! ## The macros -/

/-- `(devsize-512)` on `uint64_t`. -/
def numer (devsize : ℕ) : ℕ := toU64 (devsize - 512)

/-- `(blocksize+BLOCK_INFO_SIZE)` on `uint64_t`. -/
def denom (blocksize : ℕ) : ℕ := toU64 (blocksize + blockInfoSize : ℕ)

/-- `BLOCK_NUM` on `uint64_t`. -/
def blockNum (devsize blocksize : ℕ) : ℕ := numer devsize / denom blocksize

/-- `(int)num/den`: what the cast of `ceil` makes of `BLOCK_NUM`. -/
def castNum (num : ℤ) (den : ℕ) : ℕ := toU64 (toInt num) / den

/-- `(int)(x/d+1)` for a `double` quotient. -/
def ceilInt (x d : ℕ) : Option ℕ := if x / d + 1 < 2 ^ 31 then some (x / d + 1) else none

/-- `BITMAP_SIZE`, from the operands of `BLOCK_NUM`. -/
def bitmapSizeOf (num : ℤ) (den : ℕ) : Option ℕ := ceilInt (castNum num den) 8

/-- `BITMAP_SIZE`. -/
def bitmapSize (devsize blocksize : ℕ) : Option ℕ :=
  bitmapSizeOf (numer devsize) (denom blocksize)

/-- `BITMAP_SPACE`. -/
def bitmapSpace (devsize blocksize : ℕ) : Option ℕ := do
  let size ← bitmapSize devsize blocksize
  ceilInt size 512

/-- `INFO_SIZE`. -/
def infoSize (devsize blocksize : ℕ) : ℕ :=
  toU64 (blockNum devsize blocksize * sizeofBlockInfo : ℕ)

/-- `INFO_SPACE`. -/
def infoSpace (devsize blocksize : ℕ) : Option ℕ :=
  ceilInt (toU64 (castNum (numer devsize) (denom blocksize) * sizeofBlockInfo : ℕ)) 512

/-- `INFO_OFFSET`. -/
def infoOffset (devsize blocksize : ℕ) : Option ℕ := do
  let space ← bitmapSpace devsize blocksize
  let bytes ← int? (space * 512)
  some (toU64 (bitmapOffset + bytes))

/-- `EXTRA_SIZE`. -/
def extraSize (devsize blocksize : ℕ) : ℕ :=
  toU64 (blockNum devsize blocksize * sizeofBlockExtraInfo : ℕ)

/-- `EXTRA_SPACE`. -/
def extraSpace (devsize blocksize : ℕ) : Option ℕ :=
  ceilInt (toU64 (castNum (numer devsize) (denom blocksize) * sizeofBlockExtraInfo : ℕ)) 512

/-- `EXTRA_OFFSET`. -/
def extraOffset (devsize blocksize : ℕ) : Option ℕ := do
  let off ← infoOffset devsize blocksize
  let space ← infoSpace devsize blocksize
  let bytes ← int? (space * 512)
  some (toU64 (off + bytes))

/-- `DATA_OFFSET`. -/
def dataOffset (devsize blocksize : ℕ) : Option ℕ := do
  let off ← extraOffset devsize blocksize
  let space ← extraSpace devsize blocksize
  let bytes ← int? (space * 512)
  some (toU64 (off + bytes))

/-- `BITMAP_SIZE` inside `read_bitmap`, whose parameters are `int`: `dev_size-512`
    and `block_size+1` are computed on `int`, the rest of the divisor on `size_t`. -/
def readBitmapSize (dev_size block_size : ℤ) : Option ℕ := do
  let num ← int? (dev_size - 512)
  let b ← int? (block_size + 1)
  let den := toU64 (b + sizeofBlockInfo + sizeofBlockExtraInfo)
  if den = 0 then none else bitmapSizeOf num den

end Layout
