import Wagtail.Fat32Paths
import Wagtail.Library.Runs

/-!
# The records of a directory

What a directory lists, from its records alone, and when the driver returns it. Behind that
the loop over the clusters of a directory, for whatever the FAT yields and the clusters hold:
when it ends, and which clusters it visits.
-/
namespace WagtailFat32

open WagtailKstring
open WagtailFilesystem
open Runs (nodup_iterates)

/-! ## Live records -/

/-- The places of `n` records from `i` on. -/
def offsets : Nat → Nat → List Nat
  | 0, _ => []
  | n + 1, i => i :: offsets n (i + 32)

/-- Neither deleted nor a part of a long name. -/
def Live (buffer : Buffer) (i : Nat) : Prop :=
  buffer i ≠ 0xe5 ∧ buffer (i + 11) &&& attrLongName ≠ attrLongName

instance (buffer : Buffer) (i : Nat) : Decidable (Live buffer i) :=
  inferInstanceAs (Decidable (_ ∧ _))

/-- The live ones of these records, up to the first that starts with zero. -/
def liveRecords (buffer : Buffer) (records : List Nat) : List Nat :=
  (records.takeWhile fun i => buffer i ≠ 0).filter fun i => Live buffer i

/-- What a record says of its file. -/
structure Recorded where
  entryType : DirentryType
  fileSize : Nat
  firstCluster : Nat
  deriving DecidableEq, Repr

def recorded (buffer : Buffer) (i : Nat) : Recorded where
  entryType := if buffer (i + 11) &&& attrDirectory ≠ 0 then .directory else .file
  fileSize := le32 buffer (i + 28)
  firstCluster := le16 buffer (i + 20) <<< 16 ||| le16 buffer (i + 26)

def Direntry.recorded (e : Direntry) : Recorded := ⟨e.entryType, e.fileSize, e.inode⟩

theorem newEntry_recorded (buffer : Buffer) (i : Nat) (longFilename : Kstring) :
    Direntry.recorded (newEntry buffer i longFilename) = recorded buffer i := by
  have hcluster : fileCluster buffer i =
      le16 buffer (i + 20) <<< 16 ||| le16 buffer (i + 26) := by
    simp only [fileCluster, le16, Nat.shiftLeft_or_distrib, ← Nat.shiftLeft_add, Nat.or_assoc]
  rw [Direntry.recorded, recorded, ← hcluster]
  rfl

/-- The loop over the records ends at an end marker, if there is one. -/
theorem scan_end {buffer : Buffer} {n i : Nat} {l : Listing} :
    (scan buffer n i l).2 = true ↔ ∃ j ∈ offsets n i, buffer j = 0 := by
  induction n generalizing i l with
  | zero => simp [scan, offsets]
  | succ n ih =>
    rw [scan, offsets, List.exists_mem_cons_iff]
    by_cases hempty : buffer i = 0xe5
    · have hmark : buffer i ≠ 0 := by simp [hempty]
      rw [if_pos hempty, ih, or_iff_right hmark]
    · rw [if_neg hempty]
      by_cases hmark : buffer i = 0x00
      · simp [hmark]
      · rw [if_neg hmark, or_iff_right hmark]
        split_ifs
        · exact ih
        · exact ih

/-- It adds one entry for every live record. -/
theorem scan_recorded (buffer : Buffer) (n i : Nat) (l : Listing) :
    (scan buffer n i l).1.entries.map Direntry.recorded =
      l.entries.map Direntry.recorded ++
        (liveRecords buffer (offsets n i)).map (recorded buffer) := by
  induction n generalizing i l with
  | zero => simp [scan, offsets, liveRecords]
  | succ n ih =>
    rw [scan, offsets, liveRecords]
    by_cases hempty : buffer i = 0xe5
    · rw [if_pos hempty, List.takeWhile_cons_of_pos (by simp [hempty]),
        List.filter_cons_of_neg (by simp [Live, hempty])]
      exact ih (i + 32) _
    · rw [if_neg hempty]
      by_cases hmark : buffer i = 0x00
      · simp [hmark]
      · rw [if_neg hmark, List.takeWhile_cons_of_pos (by simpa using hmark)]
        by_cases hlong : buffer (i + 11) &&& attrLongName = attrLongName
        · rw [if_pos hlong, List.filter_cons_of_neg (by simp [Live, hlong])]
          exact ih (i + 32) _
        · rw [if_neg hlong, List.filter_cons_of_pos (by simp [Live, hempty, hlong]), ih (i + 32),
            List.map_append, List.map_singleton, newEntry_recorded, List.map_cons,
            List.append_assoc, List.singleton_append]
          rfl

/-! ## What the driver returns of them -/

/-- The places of the records of a directory with these clusters. -/
def directoryOffsets (fs : Fat32) (clusters : List Nat) : List Nat :=
  offsets (recordCount fs clusters) 0

theorem listing_recorded {fs : Fat32} {cluster : Nat} {clusters : List Nat}
    (hchain : chain fs maxTurns cluster = some clusters) :
    (listing fs cluster).map Direntry.recorded =
      (liveRecords (fileByte fs clusters) (directoryOffsets fs clusters)).map
        (recorded (fileByte fs clusters)) := by
  rw [listing, hchain]
  exact (scan_recorded _ _ _ _).trans (by rfl)

theorem firstRecords_end {part : Partition} {fs : Fat32} {cluster : Nat} {clusters : List Nat}
    (h : Mounted part fs) (hcard : part.stop ≤ 2 ^ 32) (hpos : 0 < fs.sectorsPerCluster)
    (hcluster : cluster < 2 ^ 32) (hchain : chain fs maxTurns cluster = some clusters) :
    (firstRecords fs cluster).2 = true ↔
      ∃ j ∈ offsets (blockSize / 32) 0, fileByte fs clusters j = 0 := by
  rw [firstRecords, scan_end]
  refine exists_congr fun j => and_congr_right fun hj => ?_
  have hlt : ∀ j ∈ offsets (blockSize / 32) 0, j < blockSize := by decide
  rw [clusterBuffer_eq h hcard hpos hcluster hchain (hlt j hj)]

/-- On a mounted volume, the driver returns one entry for every live record of a directory if
and only if there is an end marker in the first sector, or no live record at all. -/
theorem readDirectoryCluster_complete_iff {part : Partition} {fs : Fat32} {cluster : Nat}
    {clusters : List Nat} (h : (construct part).value = some (.ok fs))
    (hcard : part.stop ≤ 2 ^ 32) (hpos : 0 < fs.sectorsPerCluster) (hcluster : cluster < 2 ^ 32)
    (hchain : chain fs maxTurns cluster = some clusters) :
    (∃ list, (readDirectoryCluster fs cluster).value = some list ∧
        list.map Direntry.recorded =
          (liveRecords (fileByte fs clusters) (directoryOffsets fs clusters)).map
            (recorded (fileByte fs clusters))) ↔
      (∃ j ∈ offsets (blockSize / 32) 0, fileByte fs clusters j = 0) ∨
        liveRecords (fileByte fs clusters) (directoryOffsets fs clusters) = [] := by
  have hmounted := construct_mounted h
  have hlisting := listing_recorded hchain
  rw [readDirectoryCluster_value, ← firstRecords_end hmounted hcard hpos hcluster hchain]
  simp only [Option.some_inj, exists_eq_left']
  by_cases hend : (firstRecords fs cluster).2 = true
  · have heq := (firstSector_eq_listing_iff hmounted hcard hpos hcluster hchain).mpr (.inl hend)
    rw [heq]
    exact iff_of_true hlisting (.inl hend)
  · rw [firstSector, if_neg hend, or_iff_right hend, List.map_nil, eq_comm, List.map_eq_nil_iff]

theorem smallVolume_complete :
    ∃ list, (readDirectoryCluster smallVolume 2).value = some list ∧
      list.map Direntry.recorded =
        (liveRecords (fileByte smallVolume [2]) (directoryOffsets smallVolume [2])).map
          (recorded (fileByte smallVolume [2])) :=
  (readDirectoryCluster_complete_iff smallVolume_mounted (by decide) (by decide +kernel) (by decide)
    (by decide +kernel)).mpr (.inl ⟨32, by decide, by decide +kernel⟩)

/-- The small volume with the records of sixteen files in clusters 3 and 4, as a directory. -/
def fullPartition : Partition :=
  { smallPartition with
    disk := fun address i =>
      if address = 13 then (if i % 32 = 0 then 0x46 else 0) else smallPartition.disk address i }

def fullVolume : Fat32 := headerFields fullPartition (headerSector fullPartition)

/-- The records fill the first sector, and the driver returns none of them. -/
theorem fullVolume_truncated :
    (construct fullPartition).value = some (.ok fullVolume) ∧ fullPartition.stop ≤ 2 ^ 32 ∧
      chain fullVolume maxTurns 3 = some [3, 4] ∧
      (liveRecords (fileByte fullVolume [3, 4]) (directoryOffsets fullVolume [3, 4])).length = 16 ∧
      (readDirectoryCluster fullVolume 3).value = some [] := by
  refine ⟨construct_ok_iff.mpr ⟨by decide +kernel, rfl⟩, by decide, by decide +kernel,
    by decide +kernel, ?_⟩
  rw [readDirectoryCluster_value]
  decide +kernel

/-! ## The loop over clusters -/

/-- The loop of `fat32::read_directory(unsigned int)`, over the lookup of the next cluster and the
read of a cluster. -/
def clusterLoop {ε : Type} (next : Nat → Traced ε Nat) (readCluster : Nat → Traced ε Buffer) :
    Nat → Nat → Listing → Traced ε (List Direntry)
  | 0, _, _ => .stuck
  | fuel + 1, cluster, l => do
    let buffer ← readCluster cluster
    let (l, finished) := scan buffer (blockSize / 32) 0 l
    if finished then pure l.entries
    else do
      let cluster ← next cluster
      if cluster = 0 then pure l.entries
      else if cluster = 1 then pure []
      else clusterLoop next readCluster fuel cluster l

/-- What the loop returns depends on the values of the lookups and the reads alone. -/
theorem clusterLoop_value {ε ε' : Type} {next : Nat → Traced ε Nat} {next' : Nat → Traced ε' Nat}
    {readCluster : Nat → Traced ε Buffer} {readCluster' : Nat → Traced ε' Buffer}
    (hnext : ∀ c, (next c).value = (next' c).value)
    (hread : ∀ c, (readCluster c).value = (readCluster' c).value) (fuel cluster : Nat)
    (l : Listing) : (clusterLoop next readCluster fuel cluster l).value =
      (clusterLoop next' readCluster' fuel cluster l).value := by
  induction fuel generalizing cluster l with
  | zero => rfl
  | succ fuel ih =>
    rw [clusterLoop, clusterLoop, Traced.value_bind, Traced.value_bind, hread]
    refine Option.bind_congr fun buffer _ => ?_
    obtain ⟨l', finished⟩ := scan buffer (blockSize / 32) 0 l
    cases finished with
    | true => rfl
    | false =>
      simp only [Bool.false_eq_true, if_false, Traced.value_bind, hnext]
      refine Option.bind_congr fun c _ => ?_
      by_cases hzero : c = 0
      · simp only [if_pos hzero, Traced.value_pure]
      · by_cases hone : c = 1
        · simp only [if_neg hzero, if_pos hone, Traced.value_pure]
        · simp only [if_neg hzero, if_neg hone]
          exact ih c l'

/-- The read of a cluster of a directory. -/
def readDirectoryBlocks (fs : Fat32) (cluster : Nat) : Io Buffer := do
  let (buffer, _) ← readBlocks fs.partition (getClusterAddress fs cluster) fs.sectorsPerCluster
  pure buffer

theorem readClusters_eq (fs : Fat32) (fuel cluster : Nat) (l : Listing) :
    readClusters fs fuel cluster l =
      clusterLoop (getNextCluster fs) (readDirectoryBlocks fs) fuel cluster l := by
  induction fuel generalizing cluster l with
  | zero => rfl
  | succ fuel ih =>
    have hloop : readClusters fs fuel =
        clusterLoop (getNextCluster fs) (readDirectoryBlocks fs) fuel := funext₂ ih
    rw [readClusters, clusterLoop, hloop]
    rfl

section Chains

variable {next : Nat → Nat} {data : Nat → Buffer} {fuel cluster n : Nat} {l : Listing}

/-- The loop when the FAT yields `next` and the clusters hold `data`. Its effects are the clusters
that it visits. -/
def visit (next : Nat → Nat) (data : Nat → Buffer) (fuel cluster : Nat) (l : Listing) :
    Traced Nat (List Direntry) :=
  clusterLoop (fun c => pure (next c)) (fun c => do Traced.emit c; pure (data c)) fuel cluster l

def Terminates (next : Nat → Nat) (data : Nat → Buffer) (cluster : Nat) : Prop :=
  ∃ fuel, (visit next data fuel cluster ⟨[], []⟩).value ≠ none

/-- An end marker in the first sector of the cluster, or a code for the end of the chain or for
an error behind it. -/
def Last (next : Nat → Nat) (data : Nat → Buffer) (cluster : Nat) : Prop :=
  (∃ j ∈ offsets (blockSize / 32) 0, data cluster j = 0) ∨ next cluster = 0 ∨ next cluster = 1
  deriving Decidable

theorem visit_succ (next : Nat → Nat) (data : Nat → Buffer) (fuel cluster : Nat) (l : Listing) :
    visit next data (fuel + 1) cluster l =
      let listed := scan (data cluster) (blockSize / 32) 0 l
      let rest : Traced Nat (List Direntry) :=
        if listed.2 then pure listed.1.entries
        else if next cluster = 0 then pure listed.1.entries
        else if next cluster = 1 then pure []
        else visit next data fuel (next cluster) listed.1
      ⟨cluster :: rest.effects, rest.value⟩ := by
  rfl

theorem visit_last (hlast : Last next data cluster) :
    (visit next data (fuel + 1) cluster l).value ≠ none ∧
      (visit next data (fuel + 1) cluster l).effects = [cluster] := by
  rw [Last, ← scan_end (l := l)] at hlast
  simp only [visit_succ]
  by_cases hend : (scan (data cluster) (blockSize / 32) 0 l).2 = true
  · simp [hend]
  · rw [if_neg hend]
    rcases hlast.resolve_left hend with hzero | hone
    · simp [hzero]
    · simp [hone]

theorem visit_next (fuel : Nat) (l : Listing) (hlast : ¬Last next data cluster) :
    ∃ l', (visit next data (fuel + 1) cluster l).value =
        (visit next data fuel (next cluster) l').value ∧
      (visit next data (fuel + 1) cluster l).effects =
        cluster :: (visit next data fuel (next cluster) l').effects := by
  rw [Last, ← scan_end (l := l), not_or, not_or] at hlast
  obtain ⟨hend, hzero, hone⟩ := hlast
  refine ⟨(scan (data cluster) (blockSize / 32) 0 l).1, ?_⟩
  simp only [visit_succ, if_neg hend, if_neg hzero, if_neg hone, and_self]

/-- The clusters that a loop has visited when it returns: the chain up to the first cluster that
ends it. -/
theorem visit_effects (hreturns : (visit next data fuel cluster l).value ≠ none) :
    ∃ n, (visit next data fuel cluster l).effects =
        (List.range (n + 1)).map (fun m => next^[m] cluster) ∧
      Last next data (next^[n] cluster) ∧ ∀ m < n, ¬Last next data (next^[m] cluster) := by
  induction fuel generalizing cluster l with
  | zero => exact absurd rfl hreturns
  | succ fuel ih =>
    by_cases hlast : Last next data cluster
    · exact ⟨0, (visit_last hlast).2, hlast, fun m hm => absurd hm (Nat.not_lt_zero m)⟩
    · obtain ⟨l', hvalue, heffects⟩ := visit_next fuel l hlast
      rw [hvalue] at hreturns
      obtain ⟨n, hrest, hn, hfirst⟩ := ih hreturns
      refine ⟨n + 1, ?_, hn, fun m hm => ?_⟩
      · rw [heffects, hrest, List.range_succ_eq_map (n := n + 1), List.map_cons, List.map_map]
        rfl
      · cases m with
        | zero => exact hlast
        | succ m => exact hfirst m (by omega)

/-- As many turns as there are clusters up to one that ends the chain are enough. -/
theorem visit_returns (hn : Last next data (next^[n] cluster)) (hfuel : n < fuel) :
    (visit next data fuel cluster l).value ≠ none := by
  induction n generalizing fuel cluster l with
  | zero =>
    obtain ⟨fuel, rfl⟩ : ∃ k, fuel = k + 1 := ⟨fuel - 1, by omega⟩
    exact (visit_last hn).1
  | succ n ih =>
    obtain ⟨fuel, rfl⟩ : ∃ k, fuel = k + 1 := ⟨fuel - 1, by omega⟩
    by_cases hlast : Last next data cluster
    · exact (visit_last hlast).1
    · obtain ⟨l', hvalue, -⟩ := visit_next fuel l hlast
      rw [hvalue]
      exact ih hn (by omega)

theorem terminates_iff : Terminates next data cluster ↔ ∃ n, Last next data (next^[n] cluster) := by
  constructor
  · rintro ⟨fuel, hreturns⟩
    obtain ⟨n, -, hn, -⟩ := visit_effects hreturns
    exact ⟨n, hn⟩
  · rintro ⟨n, hn⟩
    exact ⟨n + 1, visit_returns hn (Nat.lt_succ_self n)⟩

/-- On chains of cluster numbers, the turns of the model are enough. -/
theorem terminates_iff_maxTurns (hnext : ∀ c, next c < maxTurns) (hcluster : cluster < maxTurns) :
    Terminates next data cluster ↔ (visit next data maxTurns cluster ⟨[], []⟩).value ≠ none := by
  refine ⟨?_, fun hreturns => ⟨maxTurns, hreturns⟩⟩
  rintro ⟨fuel, hreturns⟩
  obtain ⟨n, -, hn, hfirst⟩ := visit_effects hreturns
  have hsub : ((List.range (n + 1)).map fun m => next^[m] cluster) ⊆ List.range maxTurns := by
    intro c hc
    obtain ⟨m, -, rfl⟩ := List.mem_map.mp hc
    rw [List.mem_range]
    cases m with
    | zero => exact hcluster
    | succ m =>
      rw [Function.iterate_succ_apply']
      exact hnext _
  have hle := (List.subperm_of_subset (nodup_iterates hn hfirst) hsub).length_le
  rw [List.length_map, List.length_range, List.length_range] at hle
  exact visit_returns hn hle

/-- The driver runs this loop, with its lookup and what it reads of the clusters. -/
theorem readClusters_visit {fs : Fat32}
    (hnext : ∀ c, (getNextCluster fs c).value = some (next c)) (fuel cluster : Nat) (l : Listing) :
    (readClusters fs fuel cluster l).value =
      (visit next (clusterBuffer fs) fuel cluster l).value := by
  have hpure : ∀ c, (getNextCluster fs c).value = (pure (next c) : Traced Nat Nat).value := hnext
  rw [readClusters_eq]
  exact clusterLoop_value hpure (fun _ => rfl) fuel cluster l

/-- The loop returns exactly if the chain comes to a cluster that ends it, and then it has visited
no cluster twice. -/
theorem visits_once (next : Nat → Nat) (data : Nat → Buffer) (cluster : Nat) :
    (Terminates next data cluster ↔ ∃ n, Last next data (next^[n] cluster)) ∧
      ∀ fuel, (visit next data fuel cluster ⟨[], []⟩).value ≠ none →
        (visit next data fuel cluster ⟨[], []⟩).effects.Nodup := by
  refine ⟨terminates_iff, fun fuel hreturns => ?_⟩
  obtain ⟨n, heffects, hn, hfirst⟩ := visit_effects hreturns
  rw [heffects]
  exact nodup_iterates hn hfirst

/-- A chain of two clusters without an end marker. -/
theorem visits_once_of_two :
    Terminates (fun c => if c = 2 then 3 else 0) (fun _ _ => 0x46) 2 ∧
      (visit (fun c => if c = 2 then 3 else 0) (fun _ _ => 0x46) 3 2 ⟨[], []⟩).effects.Nodup := by
  obtain ⟨hterminates, hnodup⟩ :=
    visits_once (fun c => if c = 2 then 3 else 0) (fun _ _ => 0x46) 2
  exact ⟨hterminates.mpr ⟨1, by decide⟩, hnodup 3 (by decide +kernel)⟩

/-- A cluster without an end marker that is its own successor. -/
theorem visits_endless : ¬Terminates id (fun _ _ => 0x46) 2 := by
  rw [terminates_iff]
  rintro ⟨n, hn⟩
  rw [Function.iterate_id, id] at hn
  revert hn
  decide

end Chains

end WagtailFat32
