import Wagtail.Fat32

/-!
# The contents of a FAT32 volume

What a volume holds, independently of the driver: where its clusters lie, the
chains that its FAT describes, the bytes of a file and the entries of a
directory. The arithmetic is exact, and a well-formed chain stays inside of the
partition.
-/
namespace WagtailFat32

open Word (wrap)
open WagtailKstring
open WagtailFilesystem

def clusterBytes (fs : Fat32) : Nat := fs.sectorsPerCluster * blockSize

/-- The first sector of a cluster. -/
def clusterSector (fs : Fat32) (cluster : Nat) : Nat :=
  fs.partition.start + fs.reservedSectors + fs.numberOfFats * fs.sectorsPerFat +
    (cluster - 2) * fs.sectorsPerCluster

/-- The FAT as one array of bytes. -/
def fatBytes (fs : Fat32) : Buffer := fun i =>
  fs.partition.disk (fs.partition.start + fs.reservedSectors + i / blockSize) (i % blockSize)

/-- The low 28 bits of a FAT entry. -/
def fatEntry (fs : Fat32) (cluster : Nat) : Nat := le32 (fatBytes fs) (4 * cluster) % 2 ^ 28

/-- FAT entries from here on end a chain. -/
def endOfChain : Nat := 0x0ffffff8

/-- A cluster of the data area, with its sectors in the partition and its entry in the FAT. -/
def DataCluster (fs : Fat32) (cluster : Nat) : Prop :=
  2 ≤ cluster ∧ clusterSector fs cluster + fs.sectorsPerCluster ≤ fs.partition.stop ∧
    4 * cluster / blockSize < fs.sectorsPerFat
  deriving Decidable

/-- The chain of clusters from a cluster on, when it is well formed. -/
def chain (fs : Fat32) : Nat → Nat → Option (List Nat)
  | 0, _ => none
  | fuel + 1, cluster =>
    if DataCluster fs cluster then
      if endOfChain ≤ fatEntry fs cluster then some [cluster]
      else (chain fs fuel (fatEntry fs cluster)).map (cluster :: ·)
    else none

/-- The bytes of a cluster. -/
def clusterData (fs : Fat32) (cluster : Nat) : Buffer := fun i =>
  fs.partition.disk (clusterSector fs cluster + i / blockSize) (i % blockSize)

/-- The bytes of the concatenation of these clusters. -/
def fileByte (fs : Fat32) (clusters : List Nat) (i : Nat) : UInt8 :=
  clusterData fs (clusters.getD (i / clusterBytes fs) 0) (i % clusterBytes fs)

/-! ## Directories -/

/-- The entries of a directory, from the records in all sectors of its chain. -/
def listing (fs : Fat32) (cluster : Nat) : List Direntry :=
  match chain fs maxTurns cluster with
  | none => []
  | some clusters =>
    (scan (fileByte fs clusters) (clusters.length * (clusterBytes fs / 32)) 0 ⟨[], []⟩).1.entries

/-- The directory that an entry leads to; a `..` entry has cluster 0 for the root. -/
def target (fs : Fat32) (e : Direntry) : Nat :=
  if e.name = ['.', '.'] ∧ e.inode = 0 then fs.firstRootCluster else e.inode

/-- The directory that is reached from another one through these components. -/
def follow (fs : Fat32) : Nat → List Kstring → Option Nat
  | cluster, [] => some cluster
  | cluster, c :: components =>
    match findEntry c (listing fs cluster) with
    | none => none
    | some e => if e.entryType = .directory then follow fs (target fs e) components else none

/-- The listing of the directory with this path; no directory has none. -/
def listingOf (fs : Fat32) (components : List Kstring) : List Direntry :=
  match follow fs fs.firstRootCluster components with
  | none => []
  | some cluster => listing fs cluster

theorem follow_append (fs : Fat32) (cluster : Nat) (xs ys : List Kstring) :
    follow fs cluster (xs ++ ys) = (follow fs cluster xs).bind fun d => follow fs d ys := by
  induction xs generalizing cluster with
  | nil => rfl
  | cons c xs ih =>
    simp only [List.cons_append, follow]
    cases findEntry c (listing fs cluster) with
    | none => rfl
    | some e =>
      by_cases hdir : e.entryType = .directory
      · simp only [if_pos hdir]
        exact ih _
      · simp only [if_neg hdir]
        rfl

/-! ## Chains -/

theorem chain_head {fs : Fat32} {fuel cluster : Nat} {clusters : List Nat}
    (h : chain fs fuel cluster = some clusters) :
    DataCluster fs cluster ∧ ∃ rest, clusters = cluster :: rest := by
  cases fuel with
  | zero => cases h
  | succ fuel =>
    rw [chain] at h
    split_ifs at h with hdata hend
    · exact ⟨hdata, [], (Option.some.inj h).symm⟩
    · obtain ⟨rest, -, rfl⟩ := Option.map_eq_some_iff.mp h
      exact ⟨hdata, rest, rfl⟩

/-! ## The driver's arithmetic on well-formed volumes -/

/-- The fields of a mounted volume that come from its header. -/
structure Mounted (part : Partition) (fs : Fat32) : Prop where
  partition : fs.partition = part
  bytesPerSector : fs.bytesPerSector = blockSize
  sectorsPerCluster : fs.sectorsPerCluster < 2 ^ 8
  reservedSectors : fs.reservedSectors < 2 ^ 16
  fsinfoSector : ∃ sector < 2 ^ 16, fs.fsinfoSector = wrap64 (sector + part.start)
  firstDataSector : fs.firstDataSector =
    wrap64 (wrap (fs.reservedSectors + fs.numberOfFats * fs.sectorsPerFat) + part.start)

theorem le16_lt (buffer : Buffer) (i : Nat) : le16 buffer i < 2 ^ 16 := by
  have hlow : (buffer i).toNat < 2 ^ 8 := (buffer i).toNat_lt
  have hhigh : (buffer (i + 1)).toNat < 2 ^ 8 := (buffer (i + 1)).toNat_lt
  refine Nat.or_lt_two_pow (by omega) ?_
  rw [Nat.shiftLeft_eq]
  omega

/-- The header sector, as the constructor reads it. -/
def headerSector (part : Partition) : Buffer := fun i =>
  part.disk (wrap (wrap part.start + i / blockSize)) (i % blockSize)

/-- The header sector passes the checks of the constructor. -/
def Accepted (part : Partition) : Prop :=
  (headerSector part 0 = 0xeb ∨ headerSector part 0 = 0xe9) ∧
    (headerFields part (headerSector part)).bytesPerSector = blockSize ∧
    (headerFields part (headerSector part)).sectorCount = part.size
  deriving Decidable

theorem construct_ok_iff {part : Partition} {fs : Fat32} :
    (construct part).value = some (.ok fs) ↔
      Accepted part ∧ fs = headerFields part (headerSector part) := by
  simp only [construct, readBlock, readBlocks, Traced.value_bind, Traced.value_emit,
    Traced.value_pure, Option.bind_some]
  change (if headerSector part 0 ≠ 0xeb ∧ headerSector part 0 ≠ 0xe9 then
      (pure (.error .notFat) : Io (Except Unusable Fat32))
    else if (headerFields part (headerSector part)).bytesPerSector ≠ blockSize then
      pure (.error (.bytesPerSector (headerFields part (headerSector part)).bytesPerSector))
    else if (headerFields part (headerSector part)).sectorCount ≠ part.size then
      pure (.error .sectorCount)
    else pure (.ok (headerFields part (headerSector part)))).value = _ ↔ _
  unfold Accepted
  split_ifs with hfat hbytes hcount
  · simp only [Traced.value_pure, Option.some_inj, reduceCtorEq, false_iff]
    tauto
  · simp [hbytes]
  · simp [hcount]
  · simp only [Traced.value_pure, Option.some_inj, Except.ok.injEq]
    tauto

theorem construct_mounted {part : Partition} {fs : Fat32}
    (h : (construct part).value = some (.ok fs)) : Mounted part fs := by
  obtain ⟨⟨-, hbytes, -⟩, rfl⟩ := construct_ok_iff.mp h
  exact ⟨rfl, hbytes, UInt8.toNat_lt _, le16_lt _ _, ⟨_, le16_lt _ _, rfl⟩, rfl⟩

/-- On a card of at most `2 ^ 32` blocks, the driver computes the address of every cluster of
a well-formed chain without a wrap around. -/
theorem getClusterAddress_eq {part : Partition} {fs : Fat32} {cluster : Nat}
    (h : Mounted part fs) (hcard : part.stop ≤ 2 ^ 32) (hpos : 0 < fs.sectorsPerCluster)
    (hdata : DataCluster fs cluster) (hcluster : cluster < 2 ^ 32) :
    getClusterAddress fs cluster = clusterSector fs cluster := by
  obtain ⟨htwo, hinside, -⟩ := hdata
  simp only [clusterSector, h.partition] at hinside ⊢
  have hproduct : (cluster - 2) * fs.sectorsPerCluster < 2 ^ 32 := by omega
  rw [getClusterAddress, h.firstDataSector, Word.sub_of_le htwo hcluster,
    Word.wrap_of_lt hproduct]
  simp only [wrap64, wrap]
  omega

/-! ## A small volume -/

/-- The header of a volume of 16 sectors, with one sector a cluster. -/
def smallHeader : Buffer
  | 0 => 0xeb
  | 12 => 2
  | 13 => 1
  | 14 => 2
  | 16 => 2
  | 32 => 16
  | 36 => 1
  | 44 => 2
  | 48 => 1
  | _ => 0

/-- Its FAT: clusters 3 and 4 are a chain, cluster 2 is the root directory. -/
def smallFat : Buffer
  | 12 => 4
  | 8 | 9 | 10 | 16 | 17 | 18 => 0xff
  | 11 | 19 => 0x0f
  | _ => 0

/-- The root directory with the file `F` of 1024 bytes in cluster 3. -/
def smallRoot : Buffer
  | 0 => 0x46
  | 26 => 3
  | 29 => 4
  | _ => 0

/-- The volume lies behind eight other blocks. The file starts with the letter `x`. -/
def smallPartition : Partition where
  start := 8
  stop := 24
  disk
    | 8, i => smallHeader i
    | 10, i => smallFat i
    | 12, i => smallRoot i
    | 13, 0 => 0x78
    | _, _ => 0

def smallVolume : Fat32 := headerFields smallPartition (headerSector smallPartition)

theorem smallVolume_mounted : (construct smallPartition).value = some (.ok smallVolume) :=
  construct_ok_iff.mpr ⟨by decide +kernel, rfl⟩

end WagtailFat32
