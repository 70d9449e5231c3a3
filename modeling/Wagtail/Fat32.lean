import Wagtail.Partition

/-!
# The FAT32 driver

`fat32.cpp`: mounting a volume, directories, and opening files. Every turn of a
loop over clusters reads the disk; a loop that a volume can keep going has as
many turns as there are cluster numbers.
-/
namespace WagtailFat32

open Word (wrap)
open WagtailKstring
open WagtailFilesystem

/-- `fat32`. -/
structure Fat32 where
  partition : Partition
  bytesPerSector : Nat
  sectorsPerCluster : Nat
  reservedSectors : Nat
  numberOfFats : Nat
  sectorCount : Nat
  sectorsPerFat : Nat
  firstRootCluster : Nat
  fsinfoSector : Nat
  volumeId : Nat
  volumeLabel : Kstring
  firstDataSector : Nat

/-- Why a volume is not usable. -/
inductive Unusable where
  | notFat
  | bytesPerSector (bytesPerSector : Nat)
  | sectorCount
  deriving DecidableEq, Repr

/-- The message on the console, for a partition of this name. -/
def Unusable.message (name : String) : Unusable → String
  | .notFat => name ++ ": does not seem to be a FAT volume!"
  | .bytesPerSector n => name ++ ": using " ++ toString n ++
      " bytes per sector is not supported!\n" ++ name ++
      ": bytes per sector must match the block device's block size."
  | .sectorCount => name ++ ": sector count does not match the partition size!"

/-- The fields that the constructor of `fat32` takes from the volume header. -/
def headerFields (part : Partition) (buffer : Buffer) : Fat32 :=
  let reservedSectors := le16 buffer 14
  let numberOfFats := (buffer 16).toNat
  let sectorsPerFat := le32 buffer 36
  { partition := part
    bytesPerSector := le16 buffer 11
    sectorsPerCluster := (buffer 13).toNat
    reservedSectors
    numberOfFats
    sectorCount := le32 buffer 32
    sectorsPerFat
    firstRootCluster := le32 buffer 44
    fsinfoSector := wrap64 (le16 buffer 48 + part.start)
    volumeId := le32 buffer 67
    volumeLabel := ofBytes ((List.range 11).map fun i => buffer (71 + i))
    firstDataSector :=
      wrap64 (wrap (reservedSectors + numberOfFats * sectorsPerFat) + part.start) }

/-- `fat32::fat32`. -/
def construct (part : Partition) : Io (Except Unusable Fat32) := do
  let (buffer, _) ← readBlock part part.start
  let fs := headerFields part buffer
  if buffer 0 ≠ 0xeb ∧ buffer 0 ≠ 0xe9 then pure (.error .notFat)
  else if fs.bytesPerSector ≠ blockSize then pure (.error (.bytesPerSector fs.bytesPerSector))
  else if fs.sectorCount ≠ part.size then pure (.error .sectorCount)
  else pure (.ok fs)

/-- `fat32::get_free_space`. -/
def getFreeSpace (fs : Fat32) : Io Nat := do
  let (buffer, _) ← readBlock fs.partition fs.fsinfoSector
  let freeCount := le32 buffer 488
  pure (if freeCount ≠ 0xffffffff then
    wrap (wrap (fs.sectorsPerCluster * freeCount) * blockSize) else 0)

/-- `fat32::get_cluster_address`. -/
def getClusterAddress (fs : Fat32) (cluster : Nat) : Nat :=
  wrap64 (wrap (Word.sub cluster 2 * fs.sectorsPerCluster) + fs.firstDataSector)

/-- The address of the FAT sector that `fat32::get_next_cluster` reads. -/
def fatAddress (fs : Fat32) (cluster : Nat) : Nat :=
  wrap64 (wrap64 (fs.partition.start + fs.reservedSectors) + wrap (cluster <<< 2) >>> 9)

/-- `fat32::get_next_cluster`. -/
def getNextCluster (fs : Fat32) (cluster : Nat) : Io Nat := do
  let fatOffset := wrap (cluster <<< 2) &&& 0x1ff
  let (buffer, ok) ← readBlock fs.partition (fatAddress fs cluster)
  if !ok then pure 1
  else
    let retval := le32 buffer fatOffset &&& 0x0fffffff
    pure (if retval ≥ 0x0ffffff8 then 0 else retval)

/-! ## Directories -/

def attrDirectory : UInt8 := 0x10
def attrLongName : UInt8 := 0x01 ||| 0x02 ||| 0x04 ||| 0x08

/-- `fat32::decode_83_filename`. -/
def decode83Filename (filename : Kstring) : Kstring := filename.filter (· ≠ ' ')

/-- The name in the record at `i`, from the array `entry_name`. -/
def shortName (buffer : Buffer) (i : Nat) : Kstring :=
  decode83Filename (ofBytes ((List.range 11).map fun j => buffer (i + j)))

/-- The part of a long name in the record at `i`, from the array `temp`. -/
def longNamePart (buffer : Buffer) (i : Nat) : Kstring :=
  ofBytes (([1, 3, 5, 7, 9] ++ [14, 16, 18, 20, 22, 24] ++ [28, 30]).map fun j => buffer (i + j))

def fileCluster (buffer : Buffer) (i : Nat) : Nat :=
  (buffer (i + 20)).toNat <<< 16 ||| (buffer (i + 21)).toNat <<< 24 |||
    (buffer (i + 26)).toNat ||| (buffer (i + 27)).toNat <<< 8

/-- The list that is being built, and the long name for the next entry of it. -/
structure Listing where
  entries : List Direntry
  longFilename : Kstring
  deriving DecidableEq, Repr

/-- The entry for the record at `i`. -/
def newEntry (buffer : Buffer) (i : Nat) (longFilename : Kstring) : Direntry :=
  { name := if longFilename.length ≠ 0 then longFilename else shortName buffer i
    entryType := if buffer (i + 11) &&& attrDirectory ≠ 0 then .directory else .file
    inode := fileCluster buffer i
    fileSize := le32 buffer (i + 28)
    permissions := 0o444 }

/-- The loop over `n` records from `i` on, and whether it has met the end of the directory. -/
def scan (buffer : Buffer) : Nat → Nat → Listing → Listing × Bool
  | 0, _, l => (l, false)
  | n + 1, i, l =>
    if buffer i = 0xe5 then scan buffer n (i + 32) { l with longFilename := [] }
    else if buffer i = 0x00 then (l, true)
    else if buffer (i + 11) &&& attrLongName = attrLongName then
      scan buffer n (i + 32) { l with longFilename := longNamePart buffer i ++ l.longFilename }
    else
      scan buffer n (i + 32) ⟨l.entries ++ [newEntry buffer i l.longFilename], []⟩

/-- More turns than there are cluster numbers. -/
def maxTurns : Nat := 2 ^ 32

/-- The loop of `fat32::read_directory(unsigned int)`. -/
def readClusters (fs : Fat32) : Nat → Nat → Listing → Io (List Direntry)
  | 0, _, _ => .stuck
  | fuel + 1, cluster, l => do
    let (buffer, _) ← readBlocks fs.partition (getClusterAddress fs cluster) fs.sectorsPerCluster
    let (l, finished) := scan buffer (blockSize / 32) 0 l
    if finished then pure l.entries
    else do
      let cluster ← getNextCluster fs cluster
      if cluster = 0 then pure l.entries
      else if cluster = 1 then pure []
      else readClusters fs fuel cluster l

/-- `fat32::read_directory(unsigned int)`. -/
def readDirectoryCluster (fs : Fat32) (cluster : Nat) : Io (List Direntry) := do
  let list ← readClusters fs maxTurns cluster ⟨[], []⟩
  Traced.emit (.listed list)
  pure list

/-- The loop of `fat32::read_directory(const kstring &)`; every turn cuts the path. -/
def walkPath (fs : Fat32) : Nat → Kstring → List Direntry → Io (List Direntry)
  | 0, _, _ => .stuck
  | fuel + 1, mutablePath, current =>
    if current = [] then pure []
    else
      match index mutablePath '/' with
      | none =>
        match findEntry mutablePath current with
        | none => pure []
        | some temp => do
          let retval ← readDirectoryCluster fs temp.inode
          freeList current
          pure retval
      | some slashIndex => do
        let dirname ← Traced.ofOption (substring mutablePath 0 slashIndex)
        match findEntry dirname current with
        | none => pure []
        | some nextEntry =>
          if nextEntry.entryType ≠ .directory then pure []
          else do
            freeList current
            let current ← readDirectoryCluster fs nextEntry.inode
            walkPath fs fuel (mutablePath.drop (slashIndex + 1)) current

/-- `fat32::read_directory(const kstring &)`. -/
def readDirectory (fs : Fat32) (path : Kstring) : Io (List Direntry) := do
  let mutablePath := if path.head? = some '/' then path.drop 1 else path
  if path = ['/'] ∨ mutablePath = [] then readDirectoryCluster fs 2
  else do
    let current ← readDirectoryCluster fs 2
    walkPath fs (mutablePath.length + 1) mutablePath current

end WagtailFat32
