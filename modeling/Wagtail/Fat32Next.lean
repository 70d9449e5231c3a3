import Wagtail.BlockDevice
import Wagtail.Fat32Paths

/-!
# The lookup of the next cluster

`fat32::get_next_cluster` on a device that ends its operations in any way. The functions of
`device.cpp` under it report a failure whatever the status of the operation is, and the
lookup reports an error whatever the FAT holds.
-/
namespace WagtailFat32

open Word (wrap)
open WagtailSd (Status BlockReadOperation newBlockReadOperation)
open WagtailBlockDevice (Request)
open WagtailFilesystem

/-! ## Reads with a status -/

/-- How an operation ends: with a status, and with these bytes at its destination. -/
structure Ended where
  stat : Status
  buffer : Buffer

/-- What has become of an operation that was posted when `kthread::wait_for_io` returns. -/
abbrev Device := BlockReadOperation → Ended

/-- `block_device::read_block`. -/
def deviceReadBlock (device : Device) (destination address : Nat) : Buffer × Bool :=
  let ended := device (Request.readBlock destination address).operation
  (ended.buffer, false)

/-- `block_device::read_blocks`. -/
def deviceReadBlocks (device : Device) (destination address length : Nat) : Buffer × Bool :=
  let ended := device (Request.readBlocks destination address length).operation
  (ended.buffer, false)

/-- `fat32::get_next_cluster`, over the read of a block. -/
def lookupCluster (read : Nat → Buffer × Bool) (fs : Fat32) (cluster : Nat) : Nat :=
  let fatOffset := wrap (cluster <<< 2) &&& 0x1ff
  let (buffer, ok) := read (fatAddress fs cluster)
  if !ok then 1
  else
    let retval := le32 buffer fatOffset &&& 0x0fffffff
    if retval ≥ 0x0ffffff8 then 0 else retval

/-- On a device with a FAT volume, into a new buffer. -/
def deviceNextCluster (device : Device) (destination : Nat) (fs : Fat32) (cluster : Nat) : Nat :=
  lookupCluster (deviceReadBlock device destination) fs cluster

/-- A device that delivers the blocks of a partition. -/
def diskDevice (part : Partition) : Device := fun op =>
  { stat := .successful
    buffer := fun i => part.disk (wrap (op.address + i / blockSize)) (i % blockSize) }

/-- The lookup of the driver is the one on a device that delivers every block. -/
theorem getNextCluster_device (fs : Fat32) (destination cluster : Nat) :
    (getNextCluster fs cluster).value =
      some (deviceNextCluster (diskDevice fs.partition) destination fs cluster) := by
  rw [getNextCluster_value]
  rfl

/-! ## What the FAT says -/

/-- The cluster behind another one in its chain; 0 is the end. -/
def storedNext (fs : Fat32) (cluster : Nat) : Nat :=
  if endOfChain ≤ fatEntry fs cluster then 0 else fatEntry fs cluster

/-- The sector of the FAT with the entry of a cluster. -/
def fatSector (fs : Fat32) (cluster : Nat) : Nat :=
  fs.partition.start + fs.reservedSectors + 4 * cluster / blockSize

theorem fatAddress_eq {fs : Fat32} {cluster : Nat} (hsector : fatSector fs cluster < 2 ^ 32)
    (hcluster : cluster < 2 ^ 28) : fatAddress fs cluster = fatSector fs cluster := by
  have hblock : blockSize = 512 := rfl
  have hshift : wrap (cluster <<< 2) >>> 9 = 4 * cluster / blockSize := by
    rw [Nat.shiftLeft_eq, Nat.shiftRight_eq_div_pow, Word.wrap_of_lt (by omega), hblock,
      Nat.mul_comm]
  rw [fatAddress, hshift]
  simp only [fatSector] at hsector ⊢
  simp only [wrap64]
  omega

/-- Behind the test of the result the lookup is right: with the sector of the FAT in its buffer it
returns what the FAT says. -/
theorem lookupCluster_of_ok {fs : Fat32} {cluster : Nat} {read : Nat → Buffer × Bool}
    (hcluster : cluster < 2 ^ 28) (hok : (read (fatAddress fs cluster)).2 = true)
    (hbuffer : ∀ i < blockSize,
      (read (fatAddress fs cluster)).1 i = fs.partition.disk (fatSector fs cluster) i) :
    lookupCluster read fs cluster = storedNext fs cluster := by
  have hblock : blockSize = 512 := rfl
  have hoffset : wrap (cluster <<< 2) &&& 0x1ff = 4 * cluster % blockSize := by
    have hmask : (0x1ff : Nat) = 2 ^ 9 - 1 := by decide
    rw [Nat.shiftLeft_eq, Word.wrap_of_lt (by omega), hmask, Nat.and_two_pow_sub_one_eq_mod, hblock,
      Nat.mul_comm]
  have hbytes : ∀ j < 4, (read (fatAddress fs cluster)).1 (4 * cluster % blockSize + j) =
      fatBytes fs (4 * cluster + j) := by
    intro j hj
    have hdiv : (4 * cluster + j) / blockSize = 4 * cluster / blockSize := by
      rw [hblock]
      omega
    have hmod : 4 * cluster % blockSize + j = (4 * cluster + j) % blockSize := by
      rw [hblock]
      omega
    rw [hmod, hbuffer _ (Nat.mod_lt _ (by decide)), fatBytes, hdiv]
    rfl
  have hentry : le32 (read (fatAddress fs cluster)).1 (4 * cluster % blockSize) &&& 0x0fffffff =
      fatEntry fs cluster := by
    have hmask : (0x0fffffff : Nat) = 2 ^ 28 - 1 := by decide
    have hfirst := hbytes 0 (by decide)
    simp only [Nat.add_zero] at hfirst
    rw [hmask, Nat.and_two_pow_sub_one_eq_mod, fatEntry, le32, le32, hfirst,
      hbytes 1 (by decide), hbytes 2 (by decide), hbytes 3 (by decide)]
  rw [lookupCluster, hoffset]
  simp only [hok, hentry, Bool.not_true, Bool.false_eq_true, if_false, ge_iff_le]
  rfl

/-- The operation of the request ends well. -/
def Succeeds (device : Device) (request : Request) : Prop :=
  (device request.operation).stat = .successful
  deriving Decidable

/-- What `block_device::read_block` would have to return for its callers. -/
def reportingRead (device : Device) (destination address : Nat) : Buffer × Bool :=
  ((device (Request.readBlock destination address).operation).buffer,
    decide (Succeeds device (.readBlock destination address)))

/-- An operation that ends well has delivered its blocks. -/
def Delivers (device : Device) (part : Partition) : Prop :=
  ∀ request, Succeeds device request → ∀ i < request.operation.blocks * blockSize,
    (device request.operation).buffer i =
      part.disk (wrap (request.operation.address + i / blockSize)) (i % blockSize)

/-- With such a read the lookup returns what the FAT says, and 1 when the operation has failed. -/
theorem lookupCluster_reporting {device : Device} {fs : Fat32} {cluster : Nat} (destination : Nat)
    (hdelivers : Delivers device fs.partition) (hsector : fatSector fs cluster < 2 ^ 32)
    (hcluster : cluster < 2 ^ 28) :
    lookupCluster (reportingRead device destination) fs cluster =
      if Succeeds device (.readBlock destination (fatSector fs cluster)) then storedNext fs cluster
      else 1 := by
  have haddress := fatAddress_eq hsector hcluster
  have hblock : (Request.readBlock destination (fatSector fs cluster)).operation.address =
      fatSector fs cluster := Word.wrap_of_lt hsector
  by_cases hstat : Succeeds device (.readBlock destination (fatSector fs cluster))
  · rw [if_pos hstat]
    refine lookupCluster_of_ok hcluster ?_ fun i hi => ?_
    · rw [haddress, reportingRead]
      exact decide_eq_true hstat
    · have hinside : i < 1 * blockSize := by rwa [Nat.one_mul]
      have hbytes := hdelivers _ hstat i hinside
      rw [hblock, Nat.div_eq_of_lt hi, Nat.mod_eq_of_lt hi, Nat.add_zero,
        Word.wrap_of_lt hsector] at hbytes
      rw [haddress]
      exact hbytes
  · rw [if_neg hstat, lookupCluster, haddress, reportingRead, decide_eq_false hstat]
    rfl

/-! ## What the driver says -/

/-- The lookup returns what the FAT says when the read ends well, an error for a cluster that has
a successor only when it does not, and the read reports how the operation has ended. -/
structure LookupReports (device : Device) (destination : Nat) (fs : Fat32) (cluster : Nat) :
    Prop where
  value : Succeeds device (.readBlock destination (fatAddress fs cluster)) →
    deviceNextCluster device destination fs cluster = storedNext fs cluster
  error : 1 < storedNext fs cluster → deviceNextCluster device destination fs cluster = 1 →
    (deviceReadBlock device destination (fatAddress fs cluster)).2 = false ∧
      ¬Succeeds device (.readBlock destination (fatAddress fs cluster))
  block : (deviceReadBlock device destination (fatAddress fs cluster)).2 = true ↔
    Succeeds device (.readBlock destination (fatAddress fs cluster))

/-- A read of some blocks reports how the operation has ended. -/
def BlocksReport (device : Device) (destination address length : Nat) : Prop :=
  (deviceReadBlocks device destination address length).2 = true ↔
    Succeeds device (.readBlocks destination address length)

/-- Exactly when the driver and the reads under it report the right thing: when no operation ends
well. -/
theorem reports_iff (device : Device) (destination : Nat) (fs : Fat32)
    (cluster address length : Nat) :
    LookupReports device destination fs cluster ∧
        BlocksReport device destination address length ↔
      ¬Succeeds device (.readBlock destination (fatAddress fs cluster)) ∧
        ¬Succeeds device (.readBlocks destination address length) := by
  constructor
  · rintro ⟨⟨-, -, hblock⟩, hblocks⟩
    exact ⟨fun hstat => Bool.false_ne_true (hblock.mpr hstat),
      fun hstat => Bool.false_ne_true (hblocks.mpr hstat)⟩
  · rintro ⟨hlookup, hread⟩
    refine ⟨⟨fun hstat => absurd hstat hlookup, fun _ _ => ⟨rfl, hlookup⟩, ?_⟩, ?_⟩
    · exact iff_of_false Bool.false_ne_true hlookup
    · exact iff_of_false Bool.false_ne_true hread

/-- The next cluster is lost on a device that delivers every block. -/
theorem smallVolume_lost :
    Delivers (diskDevice smallPartition) smallPartition ∧
      Succeeds (diskDevice smallPartition) (.readBlock 0 (fatAddress smallVolume 3)) ∧
      (deviceReadBlock (diskDevice smallPartition) 0 (fatAddress smallVolume 3)).2 = false ∧
      storedNext smallVolume 3 = 4 ∧
      deviceNextCluster (diskDevice smallPartition) 0 smallVolume 3 = 1 :=
  ⟨fun _ _ _ _ => rfl, rfl, rfl, by decide +kernel, rfl⟩

end WagtailFat32
