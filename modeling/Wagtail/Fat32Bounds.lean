import Wagtail.Fat32FileRead

/-!
# Where the blocks lie that the driver asks for

Nothing between the driver and the device looks at the address of a read, so the
reads of a volume stay inside of its partition exactly when the numbers on the
disk say so: those in the header, and the clusters of the entries that a path
leads to.
-/
namespace WagtailFat32

open Word (wrap)
open WagtailKstring
open WagtailFilesystem

/-! ## Operations on a volume -/

/-- What is done with a mounted volume; a file is given by its number among the open ones. -/
inductive Operation where
  | readDirectory (path : Kstring)
  | openFile (path : Kstring)
  | read (file : Nat) (tempBuffer : TempBuffer) (buffer : Buffer) (size offset : Nat)
  | getFreeSpace

/-- An operation, and the files that are open after it. -/
def operate (fs : Fat32) (files : List Fat32File) : Operation → Io (List Fat32File)
  | .readDirectory path => do
    let _ ← readDirectory fs path
    pure files
  | .openFile path => do
    match ← openFile fs path with
    | .ok file => pure (files ++ [file])
    | .error _ => pure files
  | .read file tempBuffer buffer size offset =>
    match files[file]? with
    | none => pure files
    | some file => do
      let _ ← read file tempBuffer buffer size offset
      pure files
  | .getFreeSpace => do
    let _ ← getFreeSpace fs
    pure files

/-- A run of operations; one that does not return ends it. -/
def operateAll (fs : Fat32) : List Fat32File → List Operation → Io Unit
  | _, [] => pure ()
  | files, op :: ops => do
    let files ← operate fs files op
    operateAll fs files ops

/-- Mounting a partition, and a run of operations on it if it is usable. -/
def mountAndOperate (part : Partition) (ops : List Operation) : Io Unit := do
  match ← construct part with
  | .error _ => pure ()
  | .ok fs => operateAll fs [] ops

/-! ## Reads inside of the partition -/

/-- The blocks of a read are in the range of the partition. -/
def InRange (part : Partition) : Effect → Prop
  | .post address blocks =>
    part.start ≤ address ∧ address < part.stop ∧ address + blocks ≤ part.stop
  | .listed _ => True
  | .freed _ => True

@[simp] theorem inRange_listed (part : Partition) (list : List Direntry) :
    InRange part (.listed list) := trivial

@[simp] theorem inRange_freed (part : Partition) (list : List Direntry) :
    InRange part (.freed list) := trivial

def ClusterInRange (fs : Fat32) (cluster : Nat) : Prop :=
  InRange fs.partition (.post (wrap (getClusterAddress fs cluster)) fs.sectorsPerCluster)

def FatInRange (fs : Fat32) (cluster : Nat) : Prop :=
  InRange fs.partition (.post (wrap (fatAddress fs cluster)) 1)

/-- A cluster that can be listed. -/
def ListInRange (fs : Fat32) (cluster : Nat) : Prop :=
  ClusterInRange fs cluster ∧ ((firstRecords fs cluster).2 = false → FatInRange fs cluster)

/-- A cluster where a file can start. -/
def FileInRange (fs : Fat32) (cluster : Nat) : Prop :=
  ClusterInRange fs cluster ∧ FatInRange fs cluster

/-- An entry that a walk through these directories finds. -/
def Found (fs : Fat32) (components : List Kstring) (last : Kstring) (e : Direntry) : Prop :=
  ∃ current, through fs (firstSector fs 2) components = some current ∧
    findEntry last current = some e

/-- The numbers on the disk stay inside of the partition. A file is looked up in the root
directory, or in whatever entry the rest of its path names. -/
structure Contained (fs : Fat32) : Prop where
  fsinfo : InRange fs.partition (.post (wrap fs.fsinfoSector) 1)
  root : ListInRange fs 2
  rootFile : ∀ name e, '/' ∉ name → findEntry name (firstSector fs 2) = some e →
    FileInRange fs e.inode
  entry : ∀ components last e, Slashless (components ++ [last]) → Found fs components last e →
    ListInRange fs e.inode
  file : ∀ components last d name e, Slashless (components ++ [last]) →
    joined components last ≠ [] → Found fs components last d → '/' ∉ name →
    findEntry name (firstSector fs d.inode) = some e → FileInRange fs e.inode

/-! ## The reads of one function -/

theorem getNextCluster_all {P : Effect → Prop} {fs : Fat32} {cluster : Nat} :
    (getNextCluster fs cluster).All P ↔ P (.post (wrap (fatAddress fs cluster)) 1) := by
  simp [getNextCluster, readBlock, readBlocks, Traced.all_bind]

theorem readClusters_all {fs : Fat32} {fuel cluster : Nat} :
    (readClusters fs (fuel + 1) cluster ⟨[], []⟩).All (InRange fs.partition) ↔
      ListInRange fs cluster := by
  rw [readClusters]
  simp only [readBlocks, Traced.all_bind, Traced.all_emit, Traced.value_emit, Traced.value_bind,
    Traced.all_pure, Traced.value_pure, Option.bind_some, Option.some_inj, forall_eq',
    implies_true, and_true]
  change ClusterInRange fs cluster ∧ (if (firstRecords fs cluster).2 then
    (pure (firstRecords fs cluster).1.entries : Io (List Direntry)) else _).All _ ↔ _
  by_cases hend : (firstRecords fs cluster).2 = true
  · simp [hend, ListInRange]
  · simp [hend, ListInRange, Traced.all_bind, getNextCluster_all, getNextCluster_value, FatInRange]

theorem readDirectoryCluster_all {fs : Fat32} {cluster : Nat} :
    (readDirectoryCluster fs cluster).All (InRange fs.partition) ↔ ListInRange fs cluster := by
  rw [readDirectoryCluster, Traced.all_bind, show maxTurns = maxTurns - 1 + 1 from rfl,
    readClusters_all]
  simp [Traced.all_bind]

/-! ## The reads along a path -/

/-- The clusters that the walk lists. -/
def visited (fs : Fat32) : List Direntry → List Kstring → Kstring → List Nat
  | current, [], last => ((findEntry last current).map (·.inode)).toList
  | current, c :: components, last =>
    match findEntry c current with
    | none => []
    | some e =>
      if e.entryType = .directory then e.inode :: visited fs (firstSector fs e.inode) components last
      else []

theorem walkPath_all {fs : Fat32} {components : List Kstring} {last : Kstring} {fuel : Nat}
    (hnames : Slashless (components ++ [last])) (hfuel : components.length < fuel)
    (current : List Direntry) :
    (walkPath fs fuel (joined components last) current).All (InRange fs.partition) ↔
      ∀ cluster ∈ visited fs current components last, ListInRange fs cluster := by
  induction components generalizing fuel current with
  | nil =>
    obtain ⟨fuel, rfl⟩ := Nat.exists_eq_add_of_lt hfuel
    have hlast := index_none (hnames last (by simp))
    simp only [joined, visited, walkPath, hlast]
    by_cases hempty : current = []
    · simp [hempty, findEntry]
    · rw [if_neg hempty]
      cases findEntry last current with
      | none => simp
      | some e => simp [Traced.all_bind, readDirectoryCluster_all, freeList]
  | cons c components ih =>
    obtain ⟨fuel, rfl⟩ : ∃ n, fuel = n + 1 := ⟨fuel - 1, by omega⟩
    have hindex := index_append (hnames c (by simp)) (joined components last)
    have hname : substring (c ++ '/' :: joined components last) 0 c.length = some c := by
      rw [substring_zero]
      simp
    have hrest : (c ++ '/' :: joined components last).drop (c.length + 1) =
        joined components last := by simp
    have hnames' : Slashless (components ++ [last]) := fun d hd =>
      hnames d (List.mem_cons_of_mem c hd)
    simp only [joined, visited, walkPath, hindex, hname, hrest]
    by_cases hempty : current = []
    · simp [hempty, findEntry]
    · rw [if_neg hempty]
      simp only [Traced.all_bind, Traced.all_ofOption, Traced.value_ofOption, Option.some_inj,
        forall_eq', true_and]
      cases findEntry c current with
      | none => simp
      | some e =>
        by_cases hdir : e.entryType = .directory
        · have hstep := ih hnames' (Nat.lt_of_succ_lt_succ hfuel) (firstSector fs e.inode)
          simp [hdir, Traced.all_bind, freeList, readDirectoryCluster_all,
            readDirectoryCluster_value, hstep]
        · simp [hdir]

theorem readDirectory_all {fs : Fat32} {path : Kstring} {components : List Kstring}
    {last : Kstring} (h : relative path = joined components last)
    (hne : joined components last ≠ []) (hnames : Slashless (components ++ [last])) :
    (readDirectory fs path).All (InRange fs.partition) ↔ ListInRange fs 2 ∧
      ∀ cluster ∈ visited fs (firstSector fs 2) components last, ListInRange fs cluster := by
  have hfuel := Nat.lt_succ_of_le (length_le_joined components last)
  rw [readDirectory_of_relative h hne, Traced.all_bind, readDirectoryCluster_all]
  simp only [readDirectoryCluster_value, Option.some_inj, forall_eq',
    walkPath_all hnames hfuel]

/-- What is visited on the way is what shorter paths lead to. -/
theorem visited_found {fs : Fat32} {before components : List Kstring} {last : Kstring}
    {current : List Direntry} {cluster : Nat}
    (hnames : Slashless (before ++ components ++ [last]))
    (hthrough : through fs (firstSector fs 2) before = some current)
    (h : cluster ∈ visited fs current components last) :
    ∃ components' last' e, Slashless (components' ++ [last']) ∧
      Found fs components' last' e ∧ e.inode = cluster := by
  induction components generalizing before current with
  | nil =>
    rw [List.append_nil] at hnames
    simp only [visited, Option.mem_toList, Option.map_eq_some_iff] at h
    obtain ⟨e, he, hinode⟩ := h
    exact ⟨before, last, e, hnames, ⟨current, hthrough, he⟩, hinode⟩
  | cons c components ih =>
    have hshort : Slashless (before ++ [c]) := by
      intro d hd
      apply hnames d
      simp only [List.mem_append, List.mem_cons] at hd ⊢
      tauto
    simp only [visited] at h
    cases he : findEntry c current with
    | none => simp [he] at h
    | some e =>
      by_cases hdir : e.entryType = .directory
      · simp only [he, if_pos hdir, List.mem_cons] at h
        cases h with
        | inl h => exact ⟨before, c, e, hshort, ⟨current, hthrough, he⟩, h.symm⟩
        | inr h =>
          have hstep : through fs (firstSector fs 2) (before ++ [c]) =
              some (firstSector fs e.inode) := by
            simp [through_append, hthrough, through, he, hdir]
          exact ih (by simpa using hnames) hstep h
      · simp [he, hdir] at h

theorem visited_last {fs : Fat32} {components : List Kstring} {last : Kstring}
    {start current : List Direntry} {e : Direntry}
    (hthrough : through fs start components = some current)
    (he : findEntry last current = some e) : e.inode ∈ visited fs start components last := by
  induction components generalizing start with
  | nil =>
    obtain rfl := Option.some.inj hthrough
    simp [visited, he]
  | cons c components ih =>
    simp only [through] at hthrough
    cases hc : findEntry c start with
    | none => simp [hc] at hthrough
    | some d =>
      by_cases hdir : d.entryType = .directory
      · simp only [hc, if_pos hdir] at hthrough
        simp only [visited, hc, if_pos hdir]
        exact List.mem_cons_of_mem _ (ih hthrough)
      · simp [hc, hdir] at hthrough

/-! ## The reads of a file -/

theorem openFile_eq {fs : Fat32} {last : Kstring} (hlast : '/' ∉ last) (dir : Kstring) :
    openFile fs (dir ++ '/' :: last) = (readDirectory fs dir >>= fun dirContents =>
      if dirContents = [] then pure (.error .directory)
      else
        match findEntry last dirContents with
        | none => freeList dirContents >>= fun _ => pure (.error .file)
        | some file => freeList dirContents >>= fun _ =>
          pure (.ok (newFat32File (dir ++ '/' :: last) fs file.fileSize file.inode))) := by
  have hdir : dirname (dir ++ '/' :: last) = some dir := by
    simp [dirname, rindex_append hlast, substring_zero]
  have hname : filename (dir ++ '/' :: last) = some last := by
    simp [filename, rindex_append hlast]
  rw [openFile, hdir, hname]
  rfl

theorem openFile_stuck {fs : Fat32} {path : Kstring} (h : rindex path '/' = none) :
    openFile fs path = .stuck := by
  have hdir : dirname path = none := by simp [dirname, h]
  rw [openFile, hdir]
  rfl

theorem readTemp_all {fs : Fat32} {tempBuffer : TempBuffer} {cluster : Nat} :
    (readTemp fs tempBuffer cluster).All (InRange fs.partition) ↔ ClusterInRange fs cluster := by
  simp [readTemp, readBlocks, Traced.all_bind, ClusterInRange]

theorem skip_all {fs : Fat32} {bytesPerCluster fuel cluster offset : Nat} :
    (skip (getNextCluster fs) bytesPerCluster (fuel + 1) cluster offset).All
      (InRange fs.partition) ↔ (bytesPerCluster < offset → FatInRange fs cluster) := by
  rw [skip]
  by_cases hskip : bytesPerCluster < offset
  · simp [hskip, Traced.all_bind, getNextCluster_all, getNextCluster_value, FatInRange]
  · simp [hskip]

/-- The loop over clusters reads one of them and its sector of the FAT. -/
theorem copyClusters_all {fs : Fat32} {tempBuffer : TempBuffer}
    {bytesPerCluster size fuel cluster offset : Nat} {buffer : Buffer} (hsize : 0 < size) :
    (copyClusters (getNextCluster fs) (readTemp fs tempBuffer) bytesPerCluster size (fuel + 2)
      cluster offset 0 buffer).All (InRange fs.partition) ↔
      ClusterInRange fs cluster ∧ FatInRange fs cluster := by
  rw [copyClusters, if_pos hsize, Traced.all_bind, readTemp_all]
  apply and_congr_right
  intro _
  simp only [readTemp_value, Option.some_inj, forall_eq']
  generalize copyBytes _ _ _ _ _ _ = copied
  obtain ⟨bytesRead, copy⟩ := copied
  simp only [Traced.all_bind, getNextCluster_all, getNextCluster_value, Option.some_inj,
    forall_eq', or_true, true_and]
  by_cases hleft : bytesRead < size
  · simp [hleft, FatInRange]
  · simp [hleft, FatInRange, copyClusters]

/-- A read asks for the first cluster of the file, and for its sector of the FAT. -/
theorem read_all {file : Fat32File} {tempBuffer : TempBuffer} {buffer : Buffer}
    {size offset : Nat} :
    (read file tempBuffer buffer size offset).All (InRange file.fs.partition) ↔
      (file.bytesPerCluster < offset → FatInRange file.fs file.startInode) ∧
      (offset ≤ file.bytesPerCluster → 0 < size → FileInRange file.fs file.startInode) := by
  have hvalue := skip_value file.fs file.bytesPerCluster (maxTurns - 1) file.startInode offset
  have hskip := @skip_all file.fs file.bytesPerCluster (maxTurns - 1) file.startInode offset
  simp only [read, Traced.all_bind]
  rw [show maxTurns = maxTurns - 1 + 1 from rfl, hvalue, hskip]
  apply and_congr_right
  intro _
  by_cases hoffset : file.bytesPerCluster < offset
  · simp [hoffset]
  · have hle : offset ≤ file.bytesPerCluster := Nat.le_of_not_lt hoffset
    simp only [if_neg hoffset, Option.some_inj, forall_eq', hle, forall_const, Traced.all_bind]
    by_cases hsize : 0 < size
    · rw [show maxTurns - 1 + 1 = maxTurns - 2 + 2 from rfl, copyClusters_all hsize]
      simp [hsize, FileInRange]
    · simp [hsize, copyClusters]

theorem read_inRange {file : Fat32File} (h : FileInRange file.fs file.startInode)
    (tempBuffer : TempBuffer) (buffer : Buffer) (size offset : Nat) :
    (read file tempBuffer buffer size offset).All (InRange file.fs.partition) :=
  read_all.mpr ⟨fun _ => h.2, fun _ _ => h⟩

/-! ## Volumes that stay inside of their partition -/

theorem Contained.readDirectory {fs : Fat32} (h : Contained fs) (path : Kstring) :
    (readDirectory fs path).All (InRange fs.partition) := by
  by_cases hempty : relative path = []
  · rw [readDirectory_of_empty hempty]
    exact readDirectoryCluster_all.mpr h.root
  · obtain ⟨components, last, hnames, hpath⟩ := exists_joined (relative path)
    rw [readDirectory_all hpath (hpath ▸ hempty) hnames]
    refine ⟨h.root, fun cluster hcluster => ?_⟩
    have hvisited : cluster ∈ visited fs (firstSector fs 2) components last := hcluster
    obtain ⟨components', last', e, hnames', hfound, rfl⟩ :=
      visited_found (by simpa using hnames) (rfl : through fs _ [] = some _) hvisited
    exact h.entry components' last' e hnames' hfound

/-- Every entry of a listing can be read as a file. -/
theorem Contained.listed {fs : Fat32} (h : Contained fs) {path name : Kstring}
    {list : List Direntry} {e : Direntry}
    (hlist : (WagtailFat32.readDirectory fs path).value = some list)
    (hname : '/' ∉ name) (he : findEntry name list = some e) : FileInRange fs e.inode := by
  by_cases hempty : relative path = []
  · rw [readDirectory_of_empty hempty, readDirectoryCluster_value, Option.some_inj] at hlist
    exact h.rootFile name e hname (hlist ▸ he)
  · obtain ⟨components, last, hnames, hpath⟩ := exists_joined (relative path)
    have hne : joined components last ≠ [] := hpath ▸ hempty
    rw [readDirectory_value hpath hne hnames, Option.some_inj] at hlist
    subst hlist
    cases hcurrent : through fs (firstSector fs 2) components with
    | none => simp [hcurrent, findEntry] at he
    | some current =>
      simp only [hcurrent, Option.map_some, Option.getD_some, lastListing] at he
      cases hd : findEntry last current with
      | none =>
        rw [hd] at he
        simp [findEntry] at he
      | some d =>
        rw [hd] at he
        exact h.file components last d name e hnames hne ⟨current, hcurrent, hd⟩ hname he

/-- A file that has been opened on the volume, and that can be read. -/
def Readable (fs : Fat32) (file : Fat32File) : Prop :=
  file.fs = fs ∧ FileInRange fs file.startInode

theorem Contained.openFile {fs : Fat32} (h : Contained fs) (path : Kstring) :
    (openFile fs path).All (InRange fs.partition) ∧
      ∀ file, (openFile fs path).value = some (.ok file) → Readable fs file := by
  cases hslash : rindex path '/' with
  | none =>
    rw [openFile_stuck hslash]
    simp
  | some i =>
    obtain ⟨hpath, hlast⟩ := rindex_some hslash
    rw [hpath, openFile_eq hlast]
    constructor
    · rw [Traced.all_bind]
      refine ⟨h.readDirectory _, fun list hlist => ?_⟩
      by_cases hempty : list = []
      · simp [hempty]
      · rw [if_neg hempty]
        cases findEntry (path.drop (i + 1)) list with
        | none => simp [freeList, Traced.all_bind]
        | some e => simp [freeList, Traced.all_bind]
    · intro file hfile
      rw [Traced.value_bind] at hfile
      obtain ⟨list, hlist, hvalue⟩ := Option.bind_eq_some_iff.mp hfile
      by_cases hempty : list = []
      · simp [hempty] at hvalue
      · rw [if_neg hempty] at hvalue
        cases he : findEntry (path.drop (i + 1)) list with
        | none => simp [he, freeList] at hvalue
        | some e =>
          simp only [he, freeList, Traced.value_bind, Traced.value_emit, Option.bind_some,
            Traced.value_pure, Option.some_inj, Except.ok.injEq] at hvalue
          subst hvalue
          exact ⟨rfl, h.listed hlist hlast he⟩

/-- An operation stays in range, and leaves only readable files open. -/
theorem Contained.operate {fs : Fat32} (h : Contained fs) {files : List Fat32File}
    (hfiles : ∀ file ∈ files, Readable fs file) (op : Operation) :
    (operate fs files op).All (InRange fs.partition) ∧
      ∀ files', (operate fs files op).value = some files' → ∀ file ∈ files', Readable fs file := by
  cases op with
  | readDirectory path =>
    constructor
    · simpa [WagtailFat32.operate, Traced.all_bind] using h.readDirectory path
    · intro files' hvalue
      simp only [WagtailFat32.operate, Traced.value_bind, Traced.value_pure,
        Option.bind_eq_some_iff, Option.some_inj] at hvalue
      obtain ⟨-, -, rfl⟩ := hvalue
      exact hfiles
  | openFile path =>
    obtain ⟨hall, hopen⟩ := h.openFile path
    simp only [WagtailFat32.operate, Traced.all_bind, Traced.value_bind]
    constructor
    · refine ⟨hall, fun result _ => ?_⟩
      cases result with
      | ok file => simp
      | error e => simp
    · intro files' hvalue
      obtain ⟨result, hresult, hvalue⟩ := Option.bind_eq_some_iff.mp hvalue
      cases result with
      | ok file =>
        obtain rfl := Option.some.inj hvalue
        intro file' hmem
        cases List.mem_append.mp hmem with
        | inl hmem => exact hfiles file' hmem
        | inr hmem => exact List.mem_singleton.mp hmem ▸ hopen file hresult
      | error e =>
        obtain rfl := Option.some.inj hvalue
        exact hfiles
  | read i tempBuffer buffer size offset =>
    simp only [WagtailFat32.operate]
    cases hi : files[i]? with
    | none =>
      constructor
      · simp
      · intro files' hvalue
        obtain rfl := Option.some.inj hvalue
        exact hfiles
    | some file =>
      obtain ⟨rfl, hfile⟩ := hfiles file (List.mem_of_getElem? hi)
      constructor
      · simpa [Traced.all_bind] using read_inRange hfile tempBuffer buffer size offset
      · intro files' hvalue
        simp only [Traced.value_bind, Traced.value_pure, Option.bind_eq_some_iff,
          Option.some_inj] at hvalue
        obtain ⟨-, -, rfl⟩ := hvalue
        exact hfiles
  | getFreeSpace =>
    constructor
    · simpa [WagtailFat32.operate, getFreeSpace, readBlock, readBlocks, Traced.all_bind]
        using h.fsinfo
    · intro files' hvalue
      simp only [WagtailFat32.operate, Traced.value_bind, Traced.value_pure,
        Option.bind_eq_some_iff, Option.some_inj] at hvalue
      obtain ⟨-, -, rfl⟩ := hvalue
      exact hfiles

theorem Contained.operateAll {fs : Fat32} (h : Contained fs) (ops : List Operation)
    {files : List Fat32File} (hfiles : ∀ file ∈ files, Readable fs file) :
    (operateAll fs files ops).All (InRange fs.partition) := by
  induction ops generalizing files with
  | nil => simp [WagtailFat32.operateAll]
  | cons op ops ih =>
    obtain ⟨hall, hkeep⟩ := h.operate hfiles op
    rw [WagtailFat32.operateAll, Traced.all_bind]
    exact ⟨hall, fun files' hvalue => ih (hkeep files' hvalue)⟩

/-! ## Volumes that do not -/

theorem operateAll_single {fs : Fat32} {files : List Fat32File} {op : Operation}
    (h : (operateAll fs files [op]).All (InRange fs.partition)) :
    (operate fs files op).All (InRange fs.partition) := by
  rw [operateAll, Traced.all_bind] at h
  exact h.1

/-- Opening a file that is there, and reading a byte of it. -/
theorem fileInRange_of_operateAll {fs : Fat32} {dir name : Kstring} {list : List Direntry}
    {e : Direntry} (h : ∀ ops, (operateAll fs [] ops).All (InRange fs.partition))
    (hlist : (readDirectory fs dir).value = some list) (hname : '/' ∉ name)
    (he : findEntry name list = some e) : FileInRange fs e.inode := by
  have hne : list ≠ [] := by
    rintro rfl
    simp [findEntry] at he
  have hopen : (operate fs [] (.openFile (dir ++ '/' :: name))).value =
      some [newFat32File (dir ++ '/' :: name) fs e.fileSize e.inode] := by
    simp [operate, openFile_eq hname, hlist, hne, he, freeList]
  have hrun := h [.openFile (dir ++ '/' :: name), .read 0 ⟨true, fun _ => 0⟩ (fun _ => 0) 1 0]
  rw [operateAll, Traced.all_bind] at hrun
  have hread := operateAll_single (hrun.2 _ hopen)
  simp only [operate, List.getElem?_cons_zero, Traced.all_bind] at hread
  have hall : (read (newFat32File (dir ++ '/' :: name) fs e.fileSize e.inode) ⟨true, fun _ => 0⟩
    (fun _ => 0) 1 0).All (InRange fs.partition) := hread.1
  exact (read_all.mp hall).2 (Nat.zero_le _) Nat.one_pos

theorem contained_of_operateAll {fs : Fat32}
    (h : ∀ ops, (operateAll fs [] ops).All (InRange fs.partition)) : Contained fs := by
  have hdirectory : ∀ path, (readDirectory fs path).All (InRange fs.partition) := by
    intro path
    have hop := operateAll_single (h [.readDirectory path])
    rw [operate, Traced.all_bind] at hop
    exact hop.1
  have hrootFile : ∀ name e, '/' ∉ name → findEntry name (firstSector fs 2) = some e →
      FileInRange fs e.inode := by
    intro name e hname he
    apply fileInRange_of_operateAll h ?_ hname he
    · exact []
    · rw [readDirectory_of_empty rfl, readDirectoryCluster_value]
  constructor
  · have hop := operateAll_single (h [.getFreeSpace])
    simpa [operate, getFreeSpace, readBlock, readBlocks, Traced.all_bind] using hop
  · have hroot := hdirectory []
    rw [readDirectory_of_empty rfl] at hroot
    exact readDirectoryCluster_all.mp hroot
  · exact hrootFile
  · intro components last e hnames hfound
    obtain ⟨current, hthrough, he⟩ := hfound
    by_cases hempty : joined components last = []
    · cases components with
      | nil =>
        obtain rfl := Option.some.inj hthrough
        have hfile := hrootFile last e (hnames last (by simp)) he
        exact ⟨hfile.1, fun _ => hfile.2⟩
      | cons c components => simp [joined] at hempty
    · have hwalk := (@readDirectory_all fs ('/' :: joined components last) components last rfl
        hempty hnames).mp (hdirectory _)
      exact hwalk.2 _ (visited_last hthrough he)
  · intro components last d name e hnames hne hfound hname he
    obtain ⟨current, hthrough, hd⟩ := hfound
    apply fileInRange_of_operateAll h ?_ hname he
    · exact '/' :: joined components last
    · rw [readDirectory_value rfl hne hnames, hthrough, Option.map_some, Option.getD_some,
        lastListing, hd]

theorem construct_all {part : Partition} :
    (construct part).All (InRange part) ↔ InRange part (.post (wrap part.start) 1) := by
  simp only [construct, readBlock, readBlocks, Traced.all_bind, Traced.all_emit,
    Traced.value_bind, Traced.value_emit, Traced.value_pure, Traced.all_pure, Option.bind_some,
    Option.some_inj, forall_eq', and_true, implies_true]
  split_ifs <;> simp

/-- For every partition and every disk content, all reads of all runs of operations stay inside
of the partition if and only if its first block is there, and either the constructor refuses
the volume or the numbers on it stay inside of the partition. -/
theorem mountAndOperate_inRange_iff (part : Partition) :
    (∀ ops, (mountAndOperate part ops).All (InRange part)) ↔
      InRange part (.post (wrap part.start) 1) ∧
      (Accepted part → Contained (headerFields part (headerSector part))) := by
  constructor
  · intro h
    have hsplit : ∀ ops, _ := fun ops => Traced.all_bind.mp (h ops)
    refine ⟨construct_all.mp (hsplit []).1, fun haccepted => ?_⟩
    have hvalue := construct_ok_iff.mpr ⟨haccepted, rfl⟩
    exact contained_of_operateAll fun ops => (hsplit ops).2 _ hvalue
  · intro h ops
    rw [mountAndOperate, Traced.all_bind]
    refine ⟨construct_all.mpr h.1, fun result hresult => ?_⟩
    cases result with
    | error e => exact Traced.all_pure _ _
    | ok fs =>
      obtain ⟨haccepted, rfl⟩ := construct_ok_iff.mp hresult
      exact (h.2 haccepted).operateAll ops (by simp)

/-- The small volume, with the file in a cluster behind the end of the partition. -/
def strayPartition : Partition :=
  { smallPartition with
    disk := fun block i => if block = 12 ∧ i = 26 then 100 else smallPartition.disk block i }

/-- Listing the file of that volume reads a block of whatever comes next on the card. -/
theorem strayPartition_not_inRange : ¬ ∀ (part : Partition) (ops : List Operation),
    (mountAndOperate part ops).All (InRange part) := by
  intro hclaim
  have hpost : Effect.post 110 1 ∈
      (mountAndOperate strayPartition [.readDirectory ['/', 'F']]).effects := by
    decide +kernel
  have hrange := hclaim strayPartition _ _ hpost
  exact absurd hrange.2.1 (by decide)

end WagtailFat32
