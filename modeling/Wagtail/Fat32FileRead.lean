import Wagtail.Fat32File
import Wagtail.Fat32Paths

/-!
# What a file read delivers

The lookup of the next cluster always reports an error, because `read_block`
always returns `false`, and the size of a cluster is computed with a shift by
the number of sectors. So a read delivers the bytes of the file exactly when
they lie in its first cluster, as far as the computed size reaches.
-/
namespace WagtailFat32

open WagtailFilesystem

/-! ## The loops -/

/-- An offset behind the first cluster ends the read. -/
theorem skip_value (fs : Fat32) (bytesPerCluster fuel cluster offset : Nat) :
    (skip (getNextCluster fs) bytesPerCluster (fuel + 1) cluster offset).value =
      some (if bytesPerCluster < offset then none else some (cluster, offset)) := by
  rw [skip]
  split_ifs with hskip
  · simp [getNextCluster_value]
  · rfl

/-- What has been copied when `n` bytes were left in the temporary buffer. -/
theorem copyBytes_eq (temp : Buffer) (size n j bytesRead : Nat) (buffer : Buffer)
    (h : bytesRead ≤ size) :
    copyBytes temp size n j bytesRead buffer =
      (bytesRead + min n (size - bytesRead), fun i =>
        if bytesRead ≤ i ∧ i < bytesRead + min n (size - bytesRead) then temp (j + (i - bytesRead))
        else buffer i) := by
  induction n generalizing j bytesRead buffer with
  | zero =>
    simp only [copyBytes, Nat.zero_min, Nat.add_zero, Prod.mk.injEq, true_and]
    funext i
    rw [if_neg (by omega)]
  | succ n ih =>
    rw [copyBytes]
    by_cases hlt : bytesRead < size
    · have hmin : bytesRead + 1 + min n (size - (bytesRead + 1)) =
          bytesRead + min (n + 1) (size - bytesRead) := by omega
      rw [if_pos hlt, ih _ _ _ hlt, hmin]
      refine Prod.ext rfl (funext fun i => ?_)
      by_cases hi : i = bytesRead
      · subst hi
        simp only [Function.update_self]
        rw [if_neg (by omega), if_pos (by omega)]
        simp
      · simp only [Function.update_of_ne hi]
        by_cases hin : bytesRead ≤ i ∧ i < bytesRead + min (n + 1) (size - bytesRead)
        · rw [if_pos (by omega), if_pos hin]
          congr 1
          omega
        · rw [if_neg (by omega), if_neg hin]
    · have hmin : min (n + 1) (size - bytesRead) = 0 := by omega
      rw [if_neg hlt, hmin]
      refine Prod.ext rfl (funext fun i => ?_)
      exact (if_neg (by omega)).symm

/-- The loop over clusters reads the first one only. -/
theorem copyClusters_value {fs : Fat32} {readCluster : Nat → Io Buffer} {size cluster : Nat}
    {temp : Buffer} (bytesPerCluster fuel offset : Nat) (buffer : Buffer) (hsize : 0 < size)
    (htemp : (readCluster cluster).value = some temp) :
    (copyClusters (getNextCluster fs) readCluster bytesPerCluster size (fuel + 2) cluster offset 0
      buffer).value =
      some (min (bytesPerCluster - offset) size, fun i =>
        if i < min (bytesPerCluster - offset) size then temp (offset + i) else buffer i) := by
  have hcopy := copyBytes_eq temp size (bytesPerCluster - offset) offset 0 buffer (Nat.zero_le size)
  simp only [Nat.zero_add, Nat.sub_zero, Nat.zero_le, true_and] at hcopy
  rw [copyClusters, if_pos hsize]
  simp only [Traced.value_bind, htemp, Option.bind_some, hcopy, getNextCluster_value]
  by_cases hleft : bytesPerCluster - offset < size
  · rw [if_pos ⟨.inr trivial, by omega⟩]
    rfl
  · have hall : ¬ min (bytesPerCluster - offset) size < size := by omega
    rw [if_neg fun h => hall h.2, copyClusters, if_neg hall]
    rfl

/-! ## Reading a file -/

/-- The temporary buffer after a cluster has been read. -/
def tempAfter (fs : Fat32) (tempBuffer : TempBuffer) (cluster : Nat) : Buffer := fun j =>
  if tempBuffer.allocated ∧ j < clusterBytes fs then
    fs.partition.disk (Word.wrap (Word.wrap (getClusterAddress fs cluster) + j / blockSize))
      (j % blockSize)
  else tempBuffer.bytes j

theorem readTemp_value (fs : Fat32) (tempBuffer : TempBuffer) (cluster : Nat) :
    (readTemp fs tempBuffer cluster).value = some (tempAfter fs tempBuffer cluster) := by
  simp only [readTemp, readBlocks, Traced.value_bind, Traced.value_emit, Traced.value_pure,
    Option.bind_some]
  rfl

/-- The blocks of the first cluster of a file are its first bytes. -/
theorem tempAfter_eq {part : Partition} {fs : Fat32} {fuel start : Nat} {clusters : List Nat}
    (h : Mounted part fs) (hcard : part.stop ≤ 2 ^ 32) (hstart : start < 2 ^ 32)
    (hchain : chain fs fuel start = some clusters) (memory : Buffer) {j : Nat}
    (hj : j < clusterBytes fs) : tempAfter fs ⟨true, memory⟩ start j = fileByte fs clusters j := by
  obtain ⟨hdata, rest, rfl⟩ := chain_head hchain
  have hpos : 0 < fs.sectorsPerCluster := by
    by_contra hzero
    simp only [clusterBytes, show fs.sectorsPerCluster = 0 by omega, Nat.zero_mul] at hj
    omega
  have hsector : j / blockSize < fs.sectorsPerCluster := by
    rw [Nat.div_lt_iff_lt_mul (by decide)]
    exact hj
  have hinside := hdata.2.1
  rw [h.partition] at hinside
  have haddress : getClusterAddress fs start = clusterSector fs start :=
    getClusterAddress_eq h hcard hpos hdata hstart
  have hfirst : Word.wrap (clusterSector fs start) = clusterSector fs start :=
    Word.wrap_of_lt (by omega)
  have hblock : Word.wrap (clusterSector fs start + j / blockSize) =
      clusterSector fs start + j / blockSize := Word.wrap_of_lt (by omega)
  rw [tempAfter, if_pos ⟨rfl, hj⟩, haddress, hfirst, hblock, fileByte, Nat.div_eq_of_lt hj,
    Nat.mod_eq_of_lt hj]
  rfl

/-- A read of at least one byte, when the offset is not skipped. -/
theorem read_value (file : Fat32File) (tempBuffer : TempBuffer) (buffer : Buffer) {n offset : Nat}
    (hoffset : offset ≤ file.bytesPerCluster) (hn : 0 < n) :
    (read file tempBuffer buffer n offset).value = some (true, fun i =>
      if i < min (file.bytesPerCluster - offset) n then
        tempAfter file.fs tempBuffer file.startInode (offset + i)
      else buffer i) := by
  have hskip := skip_value file.fs file.bytesPerCluster (maxTurns - 1) file.startInode offset
  rw [if_neg (Nat.not_lt.mpr hoffset)] at hskip
  have hcopy : (copyClusters (getNextCluster file.fs) _ _ _ _ _ _ _ _).value = _ :=
    copyClusters_value file.bytesPerCluster (maxTurns - 2) offset buffer hn
      (readTemp_value file.fs tempBuffer file.startInode)
  simp only [read, Traced.value_bind]
  rw [show maxTurns = maxTurns - 1 + 1 from rfl, hskip, Option.bind_some, Traced.value_bind,
    show maxTurns - 1 + 1 = maxTurns - 2 + 2 from rfl, hcopy]
  rfl

/-- A read of nothing. -/
theorem read_empty (file : Fat32File) (tempBuffer : TempBuffer) (buffer : Buffer) (offset : Nat) :
    (read file tempBuffer buffer 0 offset).value =
      some (decide (offset ≤ file.bytesPerCluster), buffer) := by
  have hskip := skip_value file.fs file.bytesPerCluster (maxTurns - 1) file.startInode offset
  simp only [read, Traced.value_bind]
  rw [show maxTurns = maxTurns - 1 + 1 from rfl, hskip]
  by_cases hoffset : file.bytesPerCluster < offset
  · simp [hoffset, Nat.not_le.mpr hoffset]
  · simp [hoffset, Nat.not_lt.mp hoffset, copyClusters]

/-- A read that needs a cluster skipped fails. -/
theorem read_skipped (file : Fat32File) (tempBuffer : TempBuffer) (buffer : Buffer)
    {n offset : Nat} (hoffset : file.bytesPerCluster < offset) :
    (read file tempBuffer buffer n offset).value = some (false, buffer) := by
  have hskip := skip_value file.fs file.bytesPerCluster (maxTurns - 1) file.startInode offset
  rw [if_pos hoffset] at hskip
  simp only [read, Traced.value_bind]
  rw [show maxTurns = maxTurns - 1 + 1 from rfl, hskip]
  rfl

/-! ## The bytes of the file -/

/-- A file of a volume, with the chain of its clusters. -/
structure FileOn (fs : Fat32) (start fileSize : Nat) (clusters : List Nat) : Prop where
  inode : start < 2 ^ 32
  size : fileSize ≤ clusters.length * clusterBytes fs
  chain : 0 < fileSize → chain fs maxTurns start = some clusters

/-- The read succeeds and fills the buffer with bytes `offset` to `offset + n - 1` of the file,
whatever memory held before. -/
def ReadsBytes (file : Fat32File) (clusters : List Nat) (heap : Bool) (n offset : Nat) : Prop :=
  ∀ memory buffer : Buffer, ∃ result,
    (read file ⟨heap, memory⟩ buffer n offset).value = some (true, result) ∧
    ∀ i, result i = if i < n then fileByte file.fs clusters (offset + i) else buffer i

/-- What the constructor of the file takes for the bytes in a cluster. -/
theorem bytesPerCluster_eq {part : Partition} {fs : Fat32} (h : Mounted part fs)
    (hpos : 0 < fs.sectorsPerCluster) (path : WagtailKstring.Kstring) (fileSize start : Nat) :
    (newFat32File path fs fileSize start).bytesPerCluster =
      Word.wrap (512 <<< (fs.sectorsPerCluster - 1)) := by
  simp only [newFat32File, if_neg (Nat.ne_of_gt hpos), h.bytesPerSector]
  rfl

theorem byte_ne_succ (b : UInt8) : b + 1 ≠ b := by
  intro h
  have hvalue := congrArg UInt8.toNat h
  rw [UInt8.toNat_add] at hvalue
  have := b.toNat_lt
  simp only [UInt8.toNat_one] at hvalue
  omega

theorem heap_of_readsBytes {file : Fat32File} {clusters : List Nat} {heap : Bool}
    {n offset : Nat} (hn : 0 < n) (hoffset : offset ≤ file.bytesPerCluster)
    (hreads : ReadsBytes file clusters heap n offset) : heap = true := by
  cases heap with
  | true => rfl
  | false =>
    -- neither of the two bytes that can be at the start is that of the file
    obtain ⟨result, hvalue, hresult⟩ := hreads (fun j => fileByte file.fs clusters j + 1)
      fun i => fileByte file.fs clusters (offset + i) + 1
    rw [read_value file _ _ hoffset hn] at hvalue
    obtain ⟨-, rfl⟩ := Prod.mk.inj (Option.some.inj hvalue)
    have hfirst := hresult 0
    simp only [tempAfter, Bool.false_eq_true, false_and, if_false, ite_self, if_pos hn] at hfirst
    exact absurd hfirst (byte_ne_succ _)

/-- What lies behind the first cluster, as the driver computes its size, is not copied. -/
theorem le_bytesPerCluster_of_readsBytes {file : Fat32File} {clusters : List Nat} {heap : Bool}
    {n offset : Nat} (hn : 0 < n) (hreads : ReadsBytes file clusters heap n offset) :
    offset + n ≤ file.bytesPerCluster := by
  by_contra hlt
  by_cases hoffset : file.bytesPerCluster < offset
  · obtain ⟨result, hvalue, -⟩ := hreads (fun _ => 0) (fun _ => 0)
    rw [read_skipped file _ _ hoffset] at hvalue
    cases hvalue
  · obtain rfl := heap_of_readsBytes hn (Nat.le_of_not_lt hoffset) hreads
    obtain ⟨result, hvalue, hresult⟩ := hreads (fun _ => 0)
      fun i => fileByte file.fs clusters (offset + i) + 1
    rw [read_value file _ _ (by omega) hn] at hvalue
    obtain ⟨-, rfl⟩ := Prod.mk.inj (Option.some.inj hvalue)
    have hlast := hresult (n - 1)
    simp only [if_neg (show ¬ n - 1 < min (file.bytesPerCluster - offset) n by omega),
      if_pos (show n - 1 < n by omega)] at hlast
    exact byte_ne_succ _ hlast

/-- Behind the blocks of the first cluster the temporary buffer holds what it held before. -/
theorem le_clusterBytes_of_readsBytes {file : Fat32File} {clusters : List Nat} {heap : Bool}
    {n offset : Nat} (hn : 0 < n) (hreads : ReadsBytes file clusters heap n offset) :
    offset + n ≤ clusterBytes file.fs := by
  by_contra hlt
  have hle := le_bytesPerCluster_of_readsBytes hn hreads
  obtain rfl := heap_of_readsBytes hn (by omega) hreads
  obtain ⟨result, hvalue, hresult⟩ := hreads (fun j => fileByte file.fs clusters j + 1) fun _ => 0
  rw [read_value file _ _ (by omega) hn] at hvalue
  obtain ⟨-, rfl⟩ := Prod.mk.inj (Option.some.inj hvalue)
  have hlast := hresult (n - 1)
  simp only [if_pos (show n - 1 < min (file.bytesPerCluster - offset) n by omega),
    if_pos (show n - 1 < n by omega), tempAfter, true_and,
    if_neg (show ¬ offset + (n - 1) < clusterBytes file.fs by omega)] at hlast
  exact byte_ne_succ _ hlast

theorem readsBytes_of_le {part : Partition} {fs : Fat32} {path : WagtailKstring.Kstring}
    {start fileSize n offset : Nat} {clusters : List Nat} (h : Mounted part fs)
    (hcard : part.stop ≤ 2 ^ 32) (hstart : start < 2 ^ 32)
    (hchain : chain fs maxTurns start = some clusters) (hn : 0 < n)
    (hle : offset + n ≤ (newFat32File path fs fileSize start).bytesPerCluster)
    (hfirst : offset + n ≤ clusterBytes fs) :
    ReadsBytes (newFat32File path fs fileSize start) clusters true n offset := by
  intro memory buffer
  refine ⟨_, read_value _ ⟨true, memory⟩ buffer (by omega) hn, fun i => ?_⟩
  have hmin : min ((newFat32File path fs fileSize start).bytesPerCluster - offset) n = n := by
    omega
  simp only [hmin]
  split_ifs with hi
  · exact tempAfter_eq h hcard hstart hchain memory (by omega)
  · rfl

/-- For every volume that the constructor accepts and every file on it with a well-formed
chain, a read inside of the file delivers its bytes if and only if it does not reach behind
the first cluster, nor behind the number of bytes that the driver takes for one. -/
theorem read_delivers {part : Partition} {fs : Fat32}
    (h : (construct part).value = some (.ok fs)) (hcard : part.stop ≤ 2 ^ 32)
    (hspc : ∃ k ≤ 7, fs.sectorsPerCluster = 2 ^ k) (path : WagtailKstring.Kstring)
    {start fileSize : Nat} {clusters : List Nat} (hfile : FileOn fs start fileSize clusters)
    (heap : Bool) {n offset : Nat} (hrange : offset + n ≤ fileSize) :
    ReadsBytes (newFat32File path fs fileSize start) clusters heap n offset ↔
      offset ≤ Word.wrap (512 <<< (fs.sectorsPerCluster - 1)) ∧
      (n = 0 ∨ heap = true ∧ offset + n ≤ Word.wrap (512 <<< (fs.sectorsPerCluster - 1)) ∧
        offset + n ≤ 512 * fs.sectorsPerCluster) := by
  have hmounted := construct_mounted h
  have hpos : 0 < fs.sectorsPerCluster := by
    obtain ⟨k, -, hk⟩ := hspc
    rw [hk]
    exact Nat.two_pow_pos k
  have hbytes := bytesPerCluster_eq hmounted hpos path fileSize start
  have hcluster : clusterBytes fs = 512 * fs.sectorsPerCluster := Nat.mul_comm _ _
  rw [← hbytes, ← hcluster]
  rcases Nat.eq_zero_or_pos n with rfl | hn
  · have hempty : ∀ memory buffer : Buffer, _ := fun memory buffer =>
      read_empty (newFat32File path fs fileSize start) ⟨heap, memory⟩ buffer
        offset
    constructor
    · intro hreads
      obtain ⟨result, hvalue, -⟩ := hreads (fun _ => 0) (fun _ => 0)
      rw [hempty] at hvalue
      exact ⟨of_decide_eq_true (Prod.mk.inj (Option.some.inj hvalue)).1, .inl rfl⟩
    · intro hcondition memory buffer
      refine ⟨buffer, ?_, fun i => (if_neg (Nat.not_lt_zero i)).symm⟩
      rw [hempty, decide_eq_true hcondition.1]
  · constructor
    · intro hreads
      have hle := le_bytesPerCluster_of_readsBytes hn hreads
      have hoffset : offset ≤ (newFat32File path fs fileSize start).bytesPerCluster :=
        Nat.le_trans (Nat.le_add_right offset n) hle
      have hheap := heap_of_readsBytes hn hoffset hreads
      have hfirst := le_clusterBytes_of_readsBytes hn hreads
      exact ⟨hoffset, .inr ⟨hheap, hle, hfirst⟩⟩
    · rintro ⟨-, hzero | ⟨rfl, hle, hfirst⟩⟩
      · omega
      · exact readsBytes_of_le hmounted hcard hfile.inode (hfile.chain (by omega)) hn hle hfirst

/-! ## A file of two clusters -/

theorem smallVolume_file : FileOn smallVolume 3 1024 [3, 4] :=
  ⟨by decide, by decide +kernel, fun _ => by decide +kernel⟩

theorem smallVolume_delivers : ReadsBytes (newFat32File ['/', 'f'] smallVolume 1024 3) [3, 4] true
    500 12 :=
  (read_delivers smallVolume_mounted (by decide) ⟨0, by decide, by decide +kernel⟩ ['/', 'f']
    smallVolume_file true (by decide)).mpr
    ⟨by decide +kernel, .inr ⟨rfl, by decide +kernel, by decide +kernel⟩⟩

/-- The whole file is not read: the copy ends after the first cluster. -/
theorem smallVolume_not_delivered : ¬ ∀ (part : Partition) (fs : Fat32)
    (path : WagtailKstring.Kstring) (start fileSize : Nat) (clusters : List Nat) (n offset : Nat),
    (construct part).value = some (.ok fs) → part.stop ≤ 2 ^ 32 →
    (∃ k ≤ 7, fs.sectorsPerCluster = 2 ^ k) → FileOn fs start fileSize clusters →
    offset + n ≤ fileSize →
    ReadsBytes (newFat32File path fs fileSize start) clusters true n offset := by
  intro hclaim
  have hreads := hclaim smallPartition smallVolume ['/', 'f'] 3 1024 [3, 4] 1024 0
    smallVolume_mounted (by decide) ⟨0, by decide, by decide +kernel⟩ smallVolume_file (by decide)
  have hle := le_bytesPerCluster_of_readsBytes (by decide) hreads
  exact absurd hle (by decide +kernel)

end WagtailFat32
