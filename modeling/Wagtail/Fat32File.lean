import Mathlib.Logic.Function.Basic
import Wagtail.Fat32

/-!
# Files on a FAT32 volume

`fat32_file.cpp`, `fat32::open_file` and `filesystem::file_exists`. The loops of `fat32_file::read` take
the lookup of the next cluster and the read of a cluster as arguments; the
temporary buffer keeps what the blocks delivered do not cover.
-/
namespace WagtailFat32

open Word (wrap)
open WagtailKstring
open WagtailFilesystem

/-- `fat32_file` with its base class. -/
structure Fat32File where
  path : Kstring
  fs : Fat32
  size : Nat
  startInode : Nat
  bytesPerCluster : Nat

/-- `fat32_file::fat32_file`. A shift by more than the width of the register leaves zero, also
the one by -1 when the header has no sectors per cluster. -/
def newFat32File (path : Kstring) (fs : Fat32) (size startInode : Nat) : Fat32File :=
  { path, fs, size, startInode
    bytesPerCluster :=
      if fs.sectorsPerCluster = 0 then 0
      else wrap (fs.bytesPerSector <<< (fs.sectorsPerCluster - 1)) }

/-- Why a file could not be opened. -/
inductive NotFound where
  | directory
  | file
  deriving DecidableEq, Repr

/-- The message on the console. -/
def NotFound.message (path : String) : NotFound → String
  | .directory => "File not found: " ++ path ++ ": directory does not exist!"
  | .file => "File not found: " ++ path ++ ": file does not exist!"

/-- `fat32::open_file`. -/
def openFile (fs : Fat32) (path : Kstring) : Io (Except NotFound Fat32File) := do
  let dir ← Traced.ofOption (dirname path)
  let filename ← Traced.ofOption (filename path)
  let dirContents ← readDirectory fs dir
  if dirContents = [] then pure (.error .directory)
  else
    match findEntry filename dirContents with
    | none => do
      freeList dirContents
      pure (.error .file)
    | some file => do
      freeList dirContents
      pure (.ok (newFat32File path fs file.fileSize file.inode))

/-- `filesystem::file_exists`: a copy of the entry. -/
def fileExists (fs : Fat32) (path : Kstring) : Io (Option Direntry) := do
  let dirname ← Traced.ofOption (dirname path)
  let dir ← readDirectory fs dirname
  if dir = [] then pure none
  else do
    let filename ← Traced.ofOption (filename path)
    match findEntry filename dir with
    | none => do
      freeList dir
      pure none
    | some retval => do
      freeList dir
      pure (some retval)

/-! ## Reading -/

/-- The loop of `fat32_file::read` that skips clusters: the cluster and the offset in it, or
`none` at the end of the chain. -/
def skip (next : Nat → Io Nat) (bytesPerCluster : Nat) :
    Nat → Nat → Nat → Io (Option (Nat × Nat))
  | 0, _, _ => .stuck
  | fuel + 1, cluster, offset =>
    if offset > bytesPerCluster then do
      let cluster ← next cluster
      if cluster = 0 ∨ cluster = 1 then pure none
      else skip next bytesPerCluster fuel cluster (offset - bytesPerCluster)
    else pure (some (cluster, offset))

/-- The loop that copies from the temporary buffer, from index `j` on, as many turns as there
are bytes left in it. -/
def copyBytes (temp : Buffer) (size : Nat) : Nat → Nat → Nat → Buffer → Nat × Buffer
  | 0, _, bytesRead, buffer => (bytesRead, buffer)
  | left + 1, j, bytesRead, buffer =>
    if bytesRead < size then
      copyBytes temp size left (j + 1) (bytesRead + 1) (Function.update buffer bytesRead (temp j))
    else (bytesRead, buffer)

/-- The loop over clusters: what has been copied. -/
def copyClusters (next : Nat → Io Nat) (readCluster : Nat → Io Buffer) (bytesPerCluster size : Nat) :
    Nat → Nat → Nat → Nat → Buffer → Io (Nat × Buffer)
  | 0, _, _, _, _ => .stuck
  | fuel + 1, cluster, offset, bytesRead, buffer =>
    if bytesRead < size then do
      let temp ← readCluster cluster
      let (bytesRead, buffer) :=
        copyBytes temp size (bytesPerCluster - offset) offset bytesRead buffer
      let cluster ← next cluster
      if (cluster = 0 ∨ cluster = 1) ∧ bytesRead < size then pure (bytesRead, buffer)
      else copyClusters next readCluster bytesPerCluster size fuel cluster 0 bytesRead buffer
    else pure (bytesRead, buffer)

/-- What `new char[bytes_per_cluster]` comes to: memory with these bytes, or a null pointer, which
is used all the same. Then these are the bytes that the copy loop loads behind the null pointer,
where aborts are reported and the kernel goes on. -/
structure TempBuffer where
  allocated : Bool
  bytes : Buffer

/-- Reading a cluster into the temporary buffer. -/
def readTemp (fs : Fat32) (tempBuffer : TempBuffer) (cluster : Nat) : Io Buffer := do
  let (blocks, _) ← readBlocks fs.partition (getClusterAddress fs cluster) fs.sectorsPerCluster
  pure fun j =>
    if tempBuffer.allocated ∧ j < fs.sectorsPerCluster * blockSize then blocks j
    else tempBuffer.bytes j

/-- `fat32_file::read` into `buffer`. -/
def read (file : Fat32File) (tempBuffer : TempBuffer) (buffer : Buffer) (size offset : Nat) :
    Io (Bool × Buffer) := do
  let next := getNextCluster file.fs
  match ← skip next file.bytesPerCluster maxTurns file.startInode offset with
  | none => pure (false, buffer)
  | some (cluster, offset) => do
    let (_, buffer) ← copyClusters next (readTemp file.fs tempBuffer) file.bytesPerCluster size
      maxTurns cluster offset 0 buffer
    pure (true, buffer)

end WagtailFat32
