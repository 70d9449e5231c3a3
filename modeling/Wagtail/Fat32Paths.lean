import Mathlib.Data.List.Induction
import Wagtail.FatVolume

/-!
# Which directory a path leads to

The driver walks a path with the listings that it reads, which are those of the
first sector of a cluster, and from cluster 2 on. It agrees with the volume on
every path exactly when these listings are the right ones all over the tree.
-/
namespace WagtailFat32

open WagtailKstring
open WagtailFilesystem

/-! ## What the driver reads of a directory -/

/-- What the driver has in its buffer after reading a cluster. -/
def clusterBuffer (fs : Fat32) (cluster : Nat) : Buffer := fun i =>
  fs.partition.disk (Word.wrap (Word.wrap (getClusterAddress fs cluster) + i / blockSize))
    (i % blockSize)

/-- The records in the first sector of a cluster. -/
def firstRecords (fs : Fat32) (cluster : Nat) : Listing × Bool :=
  scan (clusterBuffer fs cluster) (blockSize / 32) 0 ⟨[], []⟩

/-- Their entries, if the directory ends there. -/
def firstSector (fs : Fat32) (cluster : Nat) : List Direntry :=
  if (firstRecords fs cluster).2 then (firstRecords fs cluster).1.entries else []

theorem getNextCluster_value (fs : Fat32) (cluster : Nat) :
    (getNextCluster fs cluster).value = some 1 := by
  simp [getNextCluster, readBlock, readBlocks]

/-- Without an end marker in the first sector the lookup of the next cluster fails. -/
theorem readClusters_value (fs : Fat32) (fuel cluster : Nat) :
    (readClusters fs (fuel + 1) cluster ⟨[], []⟩).value = some (firstSector fs cluster) := by
  rw [readClusters]
  simp only [readBlocks, Traced.value_bind, Traced.value_emit, Traced.value_pure, Option.bind_some]
  change (if (firstRecords fs cluster).2 then
    (pure (firstRecords fs cluster).1.entries : Io (List Direntry)) else _).value = _
  unfold firstSector
  split_ifs
  · rfl
  · simp [getNextCluster_value]

theorem readDirectoryCluster_value (fs : Fat32) (cluster : Nat) :
    (readDirectoryCluster fs cluster).value = some (firstSector fs cluster) := by
  simp only [readDirectoryCluster, Traced.value_bind]
  rw [show maxTurns = maxTurns - 1 + 1 from rfl, readClusters_value]
  rfl

/-! ## When the first sector is enough -/

theorem newEntry_congr {b b' : Buffer} {i i' : Nat} (h : ∀ j < 32, b (i + j) = b' (i' + j))
    (longFilename : Kstring) : newEntry b i longFilename = newEntry b' i' longFilename := by
  have hshort : shortName b i = shortName b' i' := by
    unfold shortName
    congr 2
    exact List.map_congr_left fun j hj => h j (Nat.lt_trans (List.mem_range.mp hj) (by decide))
  have hsize : le32 b (i + 28) = le32 b' (i' + 28) := by
    simp only [le32, Nat.add_assoc, h 28 (by decide), h (28 + 1) (by decide),
      h (28 + 2) (by decide), h (28 + 3) (by decide)]
  simp only [newEntry, fileCluster, hshort, hsize, h 11 (by decide), h 20 (by decide),
    h 21 (by decide), h 26 (by decide), h 27 (by decide)]

theorem longNamePart_congr {b b' : Buffer} {i i' : Nat}
    (h : ∀ j < 32, b (i + j) = b' (i' + j)) : longNamePart b i = longNamePart b' i' := by
  unfold longNamePart
  congr 1
  apply List.map_congr_left
  intro j hj
  have hlt : ∀ j ∈ [1, 3, 5, 7, 9] ++ [14, 16, 18, 20, 22, 24] ++ [28, 30], j < 32 := by decide
  exact h j (hlt j hj)

/-- Records behind the end marker are not looked at. -/
theorem scan_finished {b b' : Buffer} {n m i : Nat} {l : Listing} (hle : n ≤ m)
    (hsame : ∀ j < 32 * n, b (i + j) = b' (i + j)) (hfinished : (scan b n i l).2 = true) :
    scan b' m i l = scan b n i l := by
  induction n generalizing m i l with
  | zero => cases hfinished
  | succ n ih =>
    obtain ⟨m, rfl⟩ : ∃ k, m = k + 1 := ⟨m - 1, by omega⟩
    have hrecord : ∀ j < 32, b (i + j) = b' (i + j) := fun j hj => hsame j (by omega)
    have hrest : ∀ j < 32 * n, b (i + 32 + j) = b' (i + 32 + j) := by
      intro j hj
      rw [Nat.add_assoc]
      exact hsame (32 + j) (by omega)
    have hmark : b i = b' i := hrecord 0 (by decide)
    have hlast := hrecord 11 (by decide)
    rw [scan, hmark, hlast, longNamePart_congr hrecord, newEntry_congr hrecord] at hfinished
    rw [scan, scan, hmark, hlast, longNamePart_congr hrecord, newEntry_congr hrecord]
    by_cases hempty : b' i = 0xe5
    · simp only [if_pos hempty] at hfinished ⊢
      exact ih (by omega) hrest hfinished
    · simp only [if_neg hempty] at hfinished ⊢
      by_cases hend : b' i = 0x00
      · simp only [if_pos hend]
      · simp only [if_neg hend] at hfinished ⊢
        by_cases hlong : b' (i + 11) &&& attrLongName = attrLongName
        · simp only [if_pos hlong] at hfinished ⊢
          exact ih (by omega) hrest hfinished
        · simp only [if_neg hlong] at hfinished ⊢
          exact ih (by omega) hrest hfinished

/-- The driver's buffer has the first records of a directory with a well-formed chain. -/
theorem clusterBuffer_eq {part : Partition} {fs : Fat32} {cluster : Nat} {clusters : List Nat}
    (h : Mounted part fs) (hcard : part.stop ≤ 2 ^ 32) (hpos : 0 < fs.sectorsPerCluster)
    (hcluster : cluster < 2 ^ 32) (hchain : chain fs maxTurns cluster = some clusters) {j : Nat}
    (hj : j < blockSize) : clusterBuffer fs cluster j = fileByte fs clusters j := by
  obtain ⟨hdata, rest, rfl⟩ := chain_head hchain
  have haddress := getClusterAddress_eq h hcard hpos hdata hcluster
  have hsector : clusterSector fs cluster < 2 ^ 32 := by
    have hinside := hdata.2.1
    rw [h.partition] at hinside
    omega
  have hfirst : j < clusterBytes fs := Nat.lt_of_lt_of_le hj (Nat.le_mul_of_pos_left blockSize hpos)
  rw [clusterBuffer, fileByte, clusterData, Nat.div_eq_of_lt hfirst, Nat.mod_eq_of_lt hfirst,
    List.getD_cons_zero, Nat.div_eq_of_lt hj, Nat.add_zero, haddress, Word.wrap_of_lt hsector,
    Nat.add_zero, Word.wrap_of_lt hsector]

/-- The number of records in a directory with these clusters. -/
def recordCount (fs : Fat32) (clusters : List Nat) : Nat :=
  clusters.length * (clusterBytes fs / 32)

theorem le_recordCount {fs : Fat32} {fuel cluster : Nat} {clusters : List Nat}
    (hpos : 0 < fs.sectorsPerCluster) (hchain : chain fs fuel cluster = some clusters) :
    blockSize / 32 ≤ recordCount fs clusters := by
  obtain ⟨-, rest, rfl⟩ := chain_head hchain
  have hbytes : blockSize ≤ clusterBytes fs := Nat.le_mul_of_pos_left blockSize hpos
  rw [recordCount, List.length_cons, Nat.succ_mul]
  exact Nat.le_trans (Nat.div_le_div_right hbytes) (Nat.le_add_left _ _)

/-- On a mounted volume, what the driver reads of a directory with a well-formed chain is the
whole of it if and only if the end marker is in its first sector, or it is empty. -/
theorem firstSector_eq_listing_iff {part : Partition} {fs : Fat32} {cluster : Nat}
    {clusters : List Nat} (h : Mounted part fs) (hcard : part.stop ≤ 2 ^ 32)
    (hpos : 0 < fs.sectorsPerCluster) (hcluster : cluster < 2 ^ 32)
    (hchain : chain fs maxTurns cluster = some clusters) :
    firstSector fs cluster = listing fs cluster ↔
      (firstRecords fs cluster).2 = true ∨ listing fs cluster = [] := by
  by_cases hend : (firstRecords fs cluster).2 = true
  · have hsame : ∀ j < 32 * (blockSize / 32),
        clusterBuffer fs cluster (0 + j) = fileByte fs clusters (0 + j) := by
      intro j hj
      rw [Nat.zero_add]
      exact clusterBuffer_eq h hcard hpos hcluster hchain hj
    have hscan := scan_finished (le_recordCount hpos hchain) hsame hend
    have hlisting : listing fs cluster = (firstRecords fs cluster).1.entries := by
      rw [listing, hchain]
      exact congrArg (·.1.entries) hscan
    rw [firstSector, if_pos hend, hlisting]
    exact iff_of_true rfl (.inl hend)
  · rw [firstSector, if_neg hend]
    exact ⟨fun heq => .inr heq.symm, fun hcases => (hcases.resolve_left hend).symm⟩

/-! ## Paths -/

/-- A component of a path. -/
def Plain (c : Kstring) : Prop := c ≠ [] ∧ '/' ∉ c
  deriving Decidable

/-- Directory names and a last component, joined. -/
def joined : List Kstring → Kstring → Kstring
  | [], last => last
  | c :: components, last => c ++ '/' :: joined components last

/-- The absolute path of these components. -/
def absolutePath (components : List Kstring) : Kstring :=
  if components = [] then ['/'] else components.flatMap ('/' :: ·)

theorem absolutePath_concat (components : List Kstring) (last : Kstring) :
    absolutePath (components ++ [last]) = '/' :: joined components last := by
  rw [absolutePath, if_neg (by simp)]
  induction components with
  | nil => simp [joined]
  | cons c components ih =>
    rw [List.cons_append, List.flatMap_cons, ih]
    rfl

/-- Names that a path can have between its slashes. -/
def Slashless (names : List Kstring) : Prop := ∀ c ∈ names, '/' ∉ c

/-- Every string is a path. -/
theorem exists_joined (s : Kstring) :
    ∃ components last, Slashless (components ++ [last]) ∧ s = joined components last := by
  induction s with
  | nil => exact ⟨[], [], by simp [Slashless], rfl⟩
  | cons a s ih =>
    obtain ⟨components, last, hnames, rfl⟩ := ih
    by_cases hslash : a = '/'
    · subst hslash
      refine ⟨[] :: components, last, ?_, rfl⟩
      intro c hc
      cases List.mem_cons.mp hc with
      | inl hc => simp [hc]
      | inr hc => exact hnames c hc
    · cases components with
      | nil =>
        refine ⟨[], a :: last, ?_, rfl⟩
        have hlast := hnames last (by simp)
        simpa [Slashless, Ne.symm hslash] using hlast
      | cons d components =>
        refine ⟨(a :: d) :: components, last, ?_, rfl⟩
        intro c hc
        cases List.mem_cons.mp hc with
        | inl hc =>
          have hd := hnames d (by simp)
          simpa [hc, Ne.symm hslash] using hd
        | inr hc => exact hnames c (List.mem_cons_of_mem d hc)

theorem joined_ne_nil (components : List Kstring) {last : Kstring} (h : last ≠ []) :
    joined components last ≠ [] := by
  cases components with
  | nil => exact h
  | cons c components => simp [joined]

/-! ## The walk of the driver -/

/-- The listing that the driver has after these directories. -/
def through (fs : Fat32) : List Direntry → List Kstring → Option (List Direntry)
  | current, [] => some current
  | current, c :: components =>
    match findEntry c current with
    | none => none
    | some e =>
      if e.entryType = .directory then through fs (firstSector fs e.inode) components else none

/-- What the driver returns for a last component. -/
def lastListing (fs : Fat32) (current : List Direntry) (last : Kstring) : List Direntry :=
  match findEntry last current with
  | none => []
  | some e => firstSector fs e.inode

theorem through_append (fs : Fat32) (current : List Direntry) (xs ys : List Kstring) :
    through fs current (xs ++ ys) = (through fs current xs).bind fun l => through fs l ys := by
  induction xs generalizing current with
  | nil => rfl
  | cons c xs ih =>
    simp only [List.cons_append, through]
    cases findEntry c current with
    | none => rfl
    | some e =>
      by_cases hdir : e.entryType = .directory
      · simp only [if_pos hdir]
        exact ih _
      · simp only [if_neg hdir]
        rfl

theorem walkPath_value {fs : Fat32} {components : List Kstring} {last : Kstring} {fuel : Nat}
    (hnames : Slashless (components ++ [last])) (hfuel : components.length < fuel)
    (current : List Direntry) :
    (walkPath fs fuel (joined components last) current).value =
      some (((through fs current components).map (lastListing fs · last)).getD []) := by
  induction components generalizing fuel current with
  | nil =>
    obtain ⟨fuel, rfl⟩ := Nat.exists_eq_add_of_lt hfuel
    have hlast := index_none (hnames last (by simp))
    simp only [joined, through, Option.map_some, Option.getD_some,
      lastListing, walkPath, hlast]
    by_cases hempty : current = []
    · simp [hempty, findEntry]
    · rw [if_neg hempty]
      cases findEntry last current with
      | none => rfl
      | some e => simp [readDirectoryCluster_value, freeList]
  | cons c components ih =>
    obtain ⟨fuel, rfl⟩ : ∃ n, fuel = n + 1 := ⟨fuel - 1, by omega⟩
    have hindex := index_append (hnames c (by simp)) (joined components last)
    have hname : substring (c ++ '/' :: joined components last) 0 c.length = some c := by
      rw [substring_zero]
      simp
    have hrest : (c ++ '/' :: joined components last).drop (c.length + 1) =
        joined components last := by simp
    simp only [joined, through, walkPath, hindex, hname, hrest]
    by_cases hempty : current = []
    · simp [hempty, findEntry]
    · rw [if_neg hempty]
      simp only [Traced.value_bind, Traced.ofOption, Option.bind_some]
      cases findEntry c current with
      | none => rfl
      | some e =>
        by_cases hdir : e.entryType = .directory
        · simp only [hdir, ne_eq, not_true_eq_false, if_false, if_true, Traced.value_bind, freeList,
            Traced.value_emit, Option.bind_some, readDirectoryCluster_value]
          apply ih
          · intro d hd
            exact hnames d (List.mem_cons_of_mem c hd)
          · simpa using hfuel
        · simp [hdir]

theorem length_le_joined (components : List Kstring) (last : Kstring) :
    components.length ≤ (joined components last).length := by
  induction components with
  | nil => simp
  | cons c components ih =>
    simp only [joined, List.length_cons, List.length_append]
    omega

/-- A path without the slash at its start. -/
def relative (path : Kstring) : Kstring := if path.head? = some '/' then path.drop 1 else path

theorem readDirectory_of_relative {fs : Fat32} {path rest : Kstring} (h : relative path = rest)
    (hne : rest ≠ []) : readDirectory fs path =
      readDirectoryCluster fs 2 >>= fun current => walkPath fs (rest.length + 1) rest current := by
  subst h
  have hroot : path ≠ ['/'] := by
    rintro rfl
    exact hne rfl
  rw [readDirectory]
  exact if_neg (not_or.mpr ⟨hroot, hne⟩)

theorem readDirectory_of_empty {fs : Fat32} {path : Kstring} (h : relative path = []) :
    readDirectory fs path = readDirectoryCluster fs 2 := by
  rw [readDirectory]
  exact if_pos (.inr h)

/-- What the driver returns for a path of these names. -/
theorem readDirectory_value {fs : Fat32} {path : Kstring} {components : List Kstring}
    {last : Kstring} (h : relative path = joined components last)
    (hne : joined components last ≠ []) (hnames : Slashless (components ++ [last])) :
    (readDirectory fs path).value =
      some (((through fs (firstSector fs 2) components).map (lastListing fs · last)).getD []) := by
  rw [readDirectory_of_relative h hne, Traced.value_bind, readDirectoryCluster_value,
    Option.bind_some]
  exact walkPath_value hnames (Nat.lt_succ_of_le (length_le_joined components last)) _

theorem readDirectory_absolutePath {fs : Fat32} {components : List Kstring} {last : Kstring}
    (hplain : ∀ c ∈ components ++ [last], Plain c) :
    (readDirectory fs (absolutePath (components ++ [last]))).value =
      some (((through fs (firstSector fs 2) components).map (lastListing fs · last)).getD []) := by
  apply readDirectory_value
  · rw [absolutePath_concat]
    rfl
  · exact joined_ne_nil components (hplain last (by simp)).1
  · exact fun c hc => (hplain c hc).2

theorem readDirectory_root (fs : Fat32) :
    (readDirectory fs (absolutePath [])).value = some (firstSector fs 2) := by
  rw [readDirectory_of_empty rfl, readDirectoryCluster_value]

/-! ## When the driver agrees with the volume -/

/-- A directory that some path leads to. -/
def Reachable (fs : Fat32) (cluster : Nat) : Prop :=
  ∃ components, (∀ c ∈ components, Plain c) ∧
    follow fs fs.firstRootCluster components = some cluster

/-- The first sector of cluster 2 has the records of the root directory, that of a directory's
entry has the records of the directory, and that of a file does not look like records. -/
structure Faithful (fs : Fat32) : Prop where
  root : firstSector fs 2 = listing fs fs.firstRootCluster
  directory : ∀ d, Reachable fs d → ∀ c, Plain c → ∀ e, findEntry c (listing fs d) = some e →
    e.entryType = .directory → firstSector fs e.inode = listing fs (target fs e)
  file : ∀ d, Reachable fs d → ∀ c, Plain c → ∀ e, findEntry c (listing fs d) = some e →
    e.entryType ≠ .directory → firstSector fs e.inode = []

/-- Every path of plain components gets the listing of the directory that it leads to. -/
def ReadsEveryPath (fs : Fat32) : Prop :=
  ∀ components, (∀ c ∈ components, Plain c) →
    (readDirectory fs (absolutePath components)).value = some (listingOf fs components)

theorem Reachable.step {fs : Fat32} {d : Nat} {c : Kstring} {e : Direntry} (h : Reachable fs d)
    (hc : Plain c) (he : findEntry c (listing fs d) = some e) (hdir : e.entryType = .directory) :
    Reachable fs (target fs e) := by
  obtain ⟨components, hplain, hfollow⟩ := h
  refine ⟨components ++ [c], ?_, ?_⟩
  · intro d hd
    cases List.mem_append.mp hd with
    | inl hd => exact hplain d hd
    | inr hd => exact List.mem_singleton.mp hd ▸ hc
  · rw [follow_append, hfollow, Option.bind_some, follow, he]
    simp [hdir, follow]

/-- On a faithful volume the driver has the listing of the directory at every place. -/
theorem Faithful.through {fs : Fat32} (h : Faithful fs) {components : List Kstring} {d : Nat}
    (hd : Reachable fs d) (hplain : ∀ c ∈ components, Plain c) :
    through fs (listing fs d) components = (follow fs d components).map (listing fs) := by
  induction components generalizing d with
  | nil => rfl
  | cons c components ih =>
    simp only [WagtailFat32.through, follow]
    cases he : findEntry c (listing fs d) with
    | none => rfl
    | some e =>
      by_cases hdir : e.entryType = .directory
      · have hc := hplain c (by simp)
        simp only [if_pos hdir, h.directory d hd c hc e he hdir]
        exact ih (hd.step hc he hdir) fun c' hc' => hplain c' (List.mem_cons_of_mem c hc')
      · simp only [if_neg hdir]
        rfl

theorem Faithful.readsEveryPath {fs : Fat32} (h : Faithful fs) : ReadsEveryPath fs := by
  intro components hplain
  cases List.eq_nil_or_concat components with
  | inl hnil =>
    subst hnil
    rw [readDirectory_root, h.root]
    rfl
  | inr hconcat =>
    obtain ⟨components, last, rfl⟩ := hconcat
    rw [List.concat_eq_append] at hplain ⊢
    have hinit : ∀ c ∈ components, Plain c := fun c hc => hplain c (List.mem_append_left _ hc)
    have hroot : Reachable fs fs.firstRootCluster := ⟨[], by simp, rfl⟩
    rw [readDirectory_absolutePath hplain, h.root, h.through hroot hinit, listingOf, follow_append]
    cases hfollow : follow fs fs.firstRootCluster components with
    | none => rfl
    | some d =>
      simp only [Option.map_some, Option.getD_some, Option.bind_some, lastListing, follow]
      cases he : findEntry last (listing fs d) with
      | none => rfl
      | some e =>
        have hd : Reachable fs d := ⟨components, hinit, hfollow⟩
        have hlast := hplain last (by simp)
        by_cases hdir : e.entryType = .directory
        · simp [hdir, h.directory d hd last hlast e he hdir]
        · simp [hdir, h.file d hd last hlast e he hdir]

/-- A driver that answers every path has the right listing along each of them. -/
theorem ReadsEveryPath.through {fs : Fat32} (h : ReadsEveryPath fs) {components : List Kstring}
    {d : Nat} (hplain : ∀ c ∈ components, Plain c)
    (hd : follow fs fs.firstRootCluster components = some d) :
    through fs (firstSector fs 2) components = some (listing fs d) := by
  induction components using List.reverseRecOn generalizing d with
  | nil =>
    have hroot := h [] (by simp)
    rw [readDirectory_root] at hroot
    obtain rfl := Option.some.inj hd
    exact hroot
  | append_singleton components c ih =>
    have hinit : ∀ c ∈ components, Plain c := fun c hc => hplain c (List.mem_append_left _ hc)
    have hvalue := h _ hplain
    rw [readDirectory_absolutePath hplain, listingOf, hd] at hvalue
    rw [follow_append] at hd
    obtain ⟨d', hd', hstep⟩ := Option.bind_eq_some_iff.mp hd
    rw [ih hinit hd'] at hvalue
    rw [through_append, ih hinit hd', Option.bind_some]
    simp only [follow] at hstep
    simp only [Option.map_some, Option.getD_some, lastListing] at hvalue
    simp only [WagtailFat32.through]
    cases he : findEntry c (listing fs d') with
    | none => simp [he] at hstep
    | some e =>
      by_cases hdir : e.entryType = .directory
      · simpa [he, hdir] using hvalue
      · simp [he, hdir] at hstep

/-- What is read of the cluster of an entry, when every path gets the right listing. -/
theorem ReadsEveryPath.entry {fs : Fat32} (h : ReadsEveryPath fs) {d : Nat} {c : Kstring}
    {e : Direntry} (hd : Reachable fs d) (hc : Plain c)
    (he : findEntry c (listing fs d) = some e) :
    firstSector fs e.inode = if e.entryType = .directory then listing fs (target fs e) else [] := by
  obtain ⟨components, hplain, hfollow⟩ := hd
  have hplain' : ∀ c' ∈ components ++ [c], Plain c' := by
    intro c' hc'
    cases List.mem_append.mp hc' with
    | inl hc' => exact hplain c' hc'
    | inr hc' => exact List.mem_singleton.mp hc' ▸ hc
  have hvalue := h _ hplain'
  rw [readDirectory_absolutePath hplain', h.through hplain hfollow, listingOf, follow_append,
    hfollow] at hvalue
  simp only [Option.map_some, Option.getD_some, Option.bind_some, lastListing, follow, he,
    Option.some_inj] at hvalue
  rw [hvalue]
  by_cases hdir : e.entryType = .directory
  · simp [hdir]
  · simp [hdir]

theorem ReadsEveryPath.faithful {fs : Fat32} (h : ReadsEveryPath fs) : Faithful fs where
  root := Option.some.inj (h.through (by simp) (rfl : follow fs _ [] = _))
  directory d hd c hc e he hdir := by
    rw [h.entry hd hc he, if_pos hdir]
  file d hd c hc e he hdir := by
    rw [h.entry hd hc he, if_neg hdir]

/-- For every volume, the driver returns the right listing for every path if and only if the
first sector of cluster 2 has the records of the root directory, the first sector of every
directory in the tree all of its records, and no file in the tree starts like a directory. -/
theorem readsEveryPath_iff (fs : Fat32) : ReadsEveryPath fs ↔ Faithful fs :=
  ⟨ReadsEveryPath.faithful, Faithful.readsEveryPath⟩

/-- The content of a file is listed as a directory. -/
theorem smallVolume_file_listed : ¬ ∀ (part : Partition) (fs : Fat32),
    (construct part).value = some (.ok fs) → ReadsEveryPath fs := by
  intro hclaim
  have hreads := hclaim smallPartition smallVolume smallVolume_mounted [['F']] (by decide)
  exact absurd hreads (by decide +kernel)

end WagtailFat32
