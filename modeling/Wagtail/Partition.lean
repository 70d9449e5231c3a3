import Wagtail.Kstring
import Wagtail.Library.Traced
import Wagtail.Library.Word

/-!
# Partitions and directory entries

What a filesystem driver does to the world: it posts block reads to the device
under its partition, and it hands out and frees lists of directory entries. The
device delivers the blocks that it is asked for.
-/
namespace WagtailFilesystem

open Word (wrap)
open WagtailKstring

/-- `direntry::type`, as far as a FAT volume has them. -/
inductive DirentryType where
  | file
  | directory
  deriving DecidableEq, Repr

/-- `direntry`, without the filesystem it belongs to. -/
structure Direntry where
  name : Kstring
  entryType : DirentryType
  inode : Nat
  fileSize : Nat
  permissions : Nat
  deriving DecidableEq, Repr

/-- `direntry::find_entry`. The null pointer is the empty list. -/
def findEntry (name : Kstring) (start : List Direntry) : Option Direntry :=
  start.find? (·.name = name)

/-- An operation that reaches the device, or a list that is handed out or freed. -/
inductive Effect where
  | post (address blocks : Nat)
  | listed (list : List Direntry)
  | freed (list : List Direntry)
  deriving DecidableEq, Repr

abbrev Io := Traced Effect

/-- A buffer that has been read, byte by byte. -/
abbrev Buffer := Nat → UInt8

/-- `partition`. The disk holds a byte for every block address and place in the block. -/
structure Partition where
  start : Nat
  stop : Nat
  disk : Nat → Nat → UInt8

/-- Keep the low 64 bits. -/
def wrap64 (n : Nat) : Nat := n % 2 ^ 64

/-- `get_block_size`, that of the SD card. -/
def blockSize : Nat := 512

/-- `partition::get_size`. -/
def Partition.size (p : Partition) : Nat := wrap64 (2 ^ 64 + p.stop - p.start)

/-- `block_device::read_blocks` on a partition, whose `post_read` hands the operation on to
the device. The operation keeps 32 bits of the address, and the result is always `false`. -/
def readBlocks (p : Partition) (address length : Nat) : Io (Buffer × Bool) := do
  Traced.emit (.post (wrap address) length)
  pure (fun i => p.disk (wrap (wrap address + i / blockSize)) (i % blockSize), false)

/-- `block_device::read_block`. -/
def readBlock (p : Partition) (address : Nat) : Io (Buffer × Bool) := readBlocks p address 1

/-- `direntry::free_list`. -/
def freeList (start : List Direntry) : Io Unit := Traced.emit (.freed start)

/-- Two bytes as a little-endian number. -/
def le16 (buffer : Buffer) (i : Nat) : Nat :=
  (buffer i).toNat ||| (buffer (i + 1)).toNat <<< 8

/-- A word read through a pointer to `int`. -/
def le32 (buffer : Buffer) (i : Nat) : Nat :=
  (buffer i).toNat ||| (buffer (i + 1)).toNat <<< 8 ||| (buffer (i + 2)).toNat <<< 16 |||
    (buffer (i + 3)).toNat <<< 24

end WagtailFilesystem
