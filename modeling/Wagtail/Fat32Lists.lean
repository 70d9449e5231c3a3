import Wagtail.Fat32File
import Wagtail.Fat32Paths

/-!
# Who releases the lists of directory entries

The same walk over paths, with the lists in memory as objects: a list is known by
the order in which it was made, and `direntry::free_list` releases it. Two exits
of the walk forget the list that they hold.
-/
namespace WagtailFat32

open WagtailKstring
open WagtailFilesystem

variable (listOf : Nat → List Direntry)

/-- The lists that have been made, and the calls of `direntry::free_list` by the lists they
release. -/
structure Lists where
  made : List (List Direntry)
  freed : List Nat
  deriving DecidableEq, Repr

variable {s t : Lists} {p ret : Option Nat} {i : Nat}

/-- The entries behind a pointer to a list. -/
def Lists.entries (s : Lists) (i : Nat) : List Direntry := s.made.getD i []

/-- The entries behind a pointer, null for none. -/
def Lists.entriesOf (s : Lists) : Option Nat → List Direntry
  | none => []
  | some i => s.entries i

/-- `fat32::read_directory(unsigned int)`, where `listOf` is what it reads from a cluster. Nothing
read is a null pointer. -/
def Lists.readDirectoryCluster (s : Lists) (cluster : Nat) : Option Nat × Lists :=
  if listOf cluster = [] then (none, s)
  else (some s.made.length, { s with made := s.made ++ [listOf cluster] })

/-- `direntry::free_list`. -/
def Lists.freeList (s : Lists) : Option Nat → Lists
  | none => s
  | some i => { s with freed := s.freed ++ [i] }

/-! ## The functions over lists -/

/-- The loop of `fat32::read_directory(const kstring &)`. -/
def walkLists : Nat → Kstring → Option Nat → Lists → Option (Option Nat × Lists)
  | 0, _, _, _ => none
  | _ + 1, _, none, s => some (none, s)
  | fuel + 1, mutablePath, some current, s =>
    match index mutablePath '/' with
    | none =>
      match findEntry mutablePath (s.entries current) with
      | none => some (none, s)
      | some temp =>
        let (retval, s) := s.readDirectoryCluster listOf temp.inode
        some (retval, s.freeList (some current))
    | some slashIndex => do
      let dirname ← substring mutablePath 0 slashIndex
      match findEntry dirname (s.entries current) with
      | none => some (none, s)
      | some nextEntry =>
        if nextEntry.entryType ≠ .directory then some (none, s)
        else
          let s := s.freeList (some current)
          let (current, s) := s.readDirectoryCluster listOf nextEntry.inode
          walkLists fuel (mutablePath.drop (slashIndex + 1)) current s

/-- `fat32::read_directory(const kstring &)`. -/
def readDirectoryLists (path : Kstring) (s : Lists) : Option (Option Nat × Lists) :=
  let mutablePath := if path.head? = some '/' then path.drop 1 else path
  let (current, s) := s.readDirectoryCluster listOf 2
  if path = ['/'] ∨ mutablePath = [] then some (current, s)
  else walkLists listOf (mutablePath.length + 1) mutablePath current s

/-- What `fat32::open_file` and `filesystem::file_exists` do with lists: the one that the path's
directory is read into is released, whether or not it has the file. -/
def lookupLists (path : Kstring) (s : Lists) : Option (Option Nat × Lists) := do
  let dir ← dirname path
  let (contents, s) ← readDirectoryLists listOf dir s
  some (none, s.freeList contents)

/-- The calls that make lists. -/
inductive ListCall where
  | readDirectory (path : Kstring)
  | openFile (path : Kstring)
  | fileExists (path : Kstring)
  deriving DecidableEq, Repr

/-- The list that is returned to the caller, and the lists at that time. -/
def ListCall.perform : ListCall → Option (Option Nat × Lists)
  | .readDirectory path => readDirectoryLists listOf path ⟨[], []⟩
  | .openFile path => lookupLists listOf path ⟨[], []⟩
  | .fileExists path => lookupLists listOf path ⟨[], []⟩

/-- The directory that the call reads. -/
def ListCall.directory : ListCall → Option Kstring
  | .readDirectory path => some path
  | .openFile path => dirname path
  | .fileExists path => dirname path

/-! ## Accounting -/

/-- Every list but the one behind the pointer has been released exactly once. -/
structure Accounted (s : Lists) (p : Option Nat) : Prop where
  released : ∀ i < s.made.length, s.freed.count i = if p = some i then 0 else 1
  freed : ∀ i ∈ s.freed, i < s.made.length
  held : ∀ i ∈ p, i < s.made.length
  nonempty : ∀ l ∈ s.made, l ≠ []

theorem accounted_start : Accounted ⟨[], []⟩ none := by
  constructor <;> simp

theorem Accounted.read (h : Accounted s none) (cluster : Nat) :
    Accounted (s.readDirectoryCluster listOf cluster).2
      (s.readDirectoryCluster listOf cluster).1 := by
  unfold Lists.readDirectoryCluster
  split_ifs with hnil
  · exact h
  · refine ⟨fun i hi => ?_, fun i hi => ?_, ?_, ?_⟩
    · simp only [List.length_append, List.length_singleton] at hi
      by_cases hlast : i = s.made.length
      · have hnot : i ∉ s.freed := fun hmem => by
          have := h.freed i hmem
          omega
        rw [List.count_eq_zero_of_not_mem hnot, if_pos (by rw [hlast])]
      · have hold := h.released i (by omega)
        rw [hold, if_neg (by simp), if_neg (by simpa using Ne.symm hlast)]
    · have := h.freed i hi
      simp only [List.length_append, List.length_singleton]
      omega
    · simp
    · intro l hl
      rcases List.mem_append.mp hl with hl | hl
      · exact h.nonempty l hl
      · rwa [List.mem_singleton.mp hl]

/-- The list that is held has been released when nothing is held. -/
theorem accounted_freeList (hheld : ∀ i ∈ p, i < s.made.length) :
    Accounted (s.freeList p) none ↔ Accounted s p := by
  cases p with
  | none => exact Iff.rfl
  | some c =>
    have hc := hheld c rfl
    have hcount : ∀ i, (s.freed ++ [c]).count i = s.freed.count i + if c = i then 1 else 0 := by
      intro i
      by_cases hi : c = i <;> simp [hi, List.count_append]
    constructor
    · intro h
      refine ⟨fun i hi => ?_, fun i hi => h.freed i (List.mem_append_left _ hi), hheld, h.nonempty⟩
      have hone := h.released i hi
      simp only [Lists.freeList, hcount] at hone
      by_cases hci : c = i <;> simp_all
    · intro h
      refine ⟨fun i hi => ?_, fun i hi => ?_, by simp, h.nonempty⟩
      · have hold := h.released i hi
        simp only [Lists.freeList, hcount, hold, Option.some.injEq]
        by_cases hci : c = i <;> simp [hci]
      · rcases List.mem_append.mp hi with hi | hi
        · exact h.freed i hi
        · rw [List.mem_singleton.mp hi]
          exact hc

theorem Accounted.not_none {c : Nat} (h : Accounted s (some c)) : ¬Accounted s none := by
  intro hnone
  have hc := h.held c rfl
  have hheld := h.released c hc
  have hfreed := hnone.released c hc
  rw [if_pos rfl] at hheld
  rw [if_neg (by simp)] at hfreed
  omega

/-- A list is read, and the one that was held is released, in either order. -/
theorem Accounted.exchange (h : Accounted s p) (cluster : Nat) :
    Accounted ((s.freeList p).readDirectoryCluster listOf cluster).2
      ((s.freeList p).readDirectoryCluster listOf cluster).1 := by
  apply Accounted.read
  exact (accounted_freeList h.held).mpr h

theorem readDirectoryCluster_freeList (s : Lists) (p : Option Nat) (cluster : Nat) :
    (s.freeList p).readDirectoryCluster listOf cluster =
      ((s.readDirectoryCluster listOf cluster).1,
        (s.readDirectoryCluster listOf cluster).2.freeList p) := by
  unfold Lists.readDirectoryCluster
  cases p with
  | none => rfl
  | some c => split_ifs <;> rfl

/-! ## The entries behind the pointers -/

theorem Accounted.entries_ne_nil {c : Nat} (h : Accounted s (some c)) : s.entries c ≠ [] := by
  have hc := h.held c rfl
  rw [Lists.entries, List.getD_eq_getElem _ _ hc]
  exact h.nonempty _ (List.getElem_mem hc)

@[simp] theorem entriesOf_freeList (s : Lists) (p q : Option Nat) :
    (s.freeList p).entriesOf q = s.entriesOf q := by
  cases p <;> cases q <;> rfl

theorem entriesOf_read (s : Lists) (cluster : Nat) :
    (s.readDirectoryCluster listOf cluster).2.entriesOf
      (s.readDirectoryCluster listOf cluster).1 = listOf cluster := by
  unfold Lists.readDirectoryCluster
  split_ifs with hnil
  · exact hnil.symm
  · simp [Lists.entriesOf, Lists.entries]

/-! ## Which exit the walk takes -/

/-- From these entries the walk finds every component, each but the last one a directory, unless
it comes to an empty directory first. -/
def Resolves : List Direntry → List Kstring → Kstring → Prop
  | current, [], last => current = [] ∨ ∃ e, findEntry last current = some e
  | current, c :: components, last =>
    current = [] ∨ ∃ e, findEntry c current = some e ∧ e.entryType = .directory ∧
      Resolves (listOf e.inode) components last

theorem walkLists_resolves {components : List Kstring} {last : Kstring} {fuel : Nat}
    (hnames : Slashless (components ++ [last])) (hfuel : components.length < fuel)
    (h : Accounted s p) :
    ∃ ret t, walkLists listOf fuel (joined components last) p s = some (ret, t) ∧
      (ret = none ∨ Accounted t ret) ∧
      (Accounted t ret ↔ Resolves listOf (s.entriesOf p) components last) := by
  induction components generalizing fuel p s with
  | nil =>
    obtain ⟨fuel, rfl⟩ := Nat.exists_eq_add_of_lt hfuel
    have hlast := index_none (hnames last (by simp))
    cases p with
    | none => exact ⟨none, s, rfl, .inl rfl, iff_of_true h (.inl rfl)⟩
    | some c =>
      have hne := h.entries_ne_nil
      simp only [joined, walkLists, hlast, Resolves, Lists.entriesOf, hne, false_or]
      cases hentry : findEntry last (s.entries c) with
      | none => exact ⟨none, s, rfl, .inl rfl, iff_of_false h.not_none (by simp)⟩
      | some e =>
        have hread := h.exchange listOf e.inode
        rw [readDirectoryCluster_freeList] at hread
        exact ⟨_, _, rfl, .inr hread, iff_of_true hread ⟨e, rfl⟩⟩
  | cons d components ih =>
    obtain ⟨fuel, rfl⟩ : ∃ n, fuel = n + 1 := ⟨fuel - 1, by omega⟩
    have hindex := index_append (hnames d (by simp)) (joined components last)
    have hname : substring (d ++ '/' :: joined components last) 0 d.length = some d := by
      rw [substring_zero]
      simp
    have hrest : (d ++ '/' :: joined components last).drop (d.length + 1) =
        joined components last := by simp
    cases p with
    | none => exact ⟨none, s, rfl, .inl rfl, iff_of_true h (.inl rfl)⟩
    | some c =>
      have hne := h.entries_ne_nil
      simp only [joined, walkLists, hindex, hname, hrest, Resolves, Lists.entriesOf, hne, false_or,
        bind, Option.bind_some]
      cases hentry : findEntry d (s.entries c) with
      | none => exact ⟨none, s, rfl, .inl rfl, iff_of_false h.not_none (by simp)⟩
      | some e =>
        by_cases hdir : e.entryType = .directory
        · have hrestNames : Slashless (components ++ [last]) := fun c' hc' =>
            hnames c' (List.mem_cons_of_mem d hc')
          obtain ⟨ret, t, hwalk, hret, hiff⟩ := ih hrestNames (by simpa using hfuel)
            (h.exchange listOf e.inode)
          rw [entriesOf_read] at hiff
          simp only [hdir, ne_eq, not_true_eq_false, if_false]
          refine ⟨ret, t, hwalk, hret, hiff.trans ?_⟩
          simp [hdir]
        · simp only [hdir, ne_eq, not_false_eq_true, if_true]
          exact ⟨none, s, rfl, .inl rfl, iff_of_false h.not_none (by simp [hdir])⟩

/-- The walk along this directory path ends without a list in its hands, other than the one that
it returns. -/
def PathResolves (path : Kstring) : Prop :=
  ∀ components last, Slashless (components ++ [last]) → relative path = joined components last →
    relative path ≠ [] → Resolves listOf (listOf 2) components last

theorem readDirectoryLists_of_empty {path : Kstring} (h : relative path = []) :
    readDirectoryLists listOf path s = some (s.readDirectoryCluster listOf 2) :=
  if_pos (.inr h)

theorem readDirectoryLists_of_relative {path : Kstring} (h : relative path ≠ []) :
    readDirectoryLists listOf path s =
      walkLists listOf ((relative path).length + 1) (relative path)
        (s.readDirectoryCluster listOf 2).1 (s.readDirectoryCluster listOf 2).2 := by
  have hroot : path ≠ ['/'] := fun hpath => h (by rw [hpath]; rfl)
  exact if_neg (not_or.mpr ⟨hroot, h⟩)

theorem readDirectoryLists_joined {path : Kstring} {components : List Kstring} {last : Kstring}
    (hne : relative path ≠ []) (hnames : Slashless (components ++ [last]))
    (hjoined : relative path = joined components last) :
    ∃ ret t, readDirectoryLists listOf path ⟨[], []⟩ = some (ret, t) ∧
      (ret = none ∨ Accounted t ret) ∧
      (Accounted t ret ↔ Resolves listOf (listOf 2) components last) := by
  have hfuel : components.length < (relative path).length + 1 := by
    have hlength := length_le_joined components last
    rw [hjoined]
    omega
  have hread := accounted_start.read listOf 2
  obtain ⟨ret, t, hwalk, hret, hiff⟩ := walkLists_resolves listOf hnames hfuel hread
  rw [entriesOf_read] at hiff
  rw [← hjoined] at hwalk
  exact ⟨ret, t, (readDirectoryLists_of_relative listOf hne).trans hwalk, hret, hiff⟩

theorem readDirectoryLists_resolves (path : Kstring) :
    ∃ ret t, readDirectoryLists listOf path ⟨[], []⟩ = some (ret, t) ∧
      (ret = none ∨ Accounted t ret) ∧
      (Accounted t ret ↔ PathResolves listOf path) := by
  by_cases hempty : relative path = []
  · have hread := accounted_start.read listOf 2
    refine ⟨_, _, readDirectoryLists_of_empty listOf hempty, .inr hread, iff_of_true hread ?_⟩
    exact fun _ _ _ _ hne => absurd hempty hne
  · obtain ⟨components, last, hnames, hjoined⟩ := exists_joined (relative path)
    obtain ⟨ret, t, hperform, hret, hiff⟩ := readDirectoryLists_joined listOf hempty hnames hjoined
    refine ⟨ret, t, hperform, hret, ?_⟩
    constructor
    · intro haccounted components' last' hnames' hjoined' _
      obtain ⟨ret', t', hperform', -, hiff'⟩ :=
        readDirectoryLists_joined listOf hempty hnames' hjoined'
      rw [hperform] at hperform'
      obtain ⟨rfl, rfl⟩ := Prod.mk.inj (Option.some.inj hperform')
      exact hiff'.mp haccounted
    · exact fun hresolves => hiff.mpr (hresolves components last hnames hjoined hempty)

/-! ## Agreement with the driver -/

/-- A list that is handed out, unless it is a null pointer. -/
def Effect.made : Effect → Option (List Direntry)
  | .listed [] => none
  | .listed list => some list
  | _ => none

/-- A list that is released. -/
def Effect.released : Effect → Option (List Direntry)
  | .freed list => some list
  | _ => none

/-- The computation returns this value, and the lists that it makes and releases lead from `s`
to `t`. -/
structure Follows {α : Type} (m : Io α) (a : α) (s t : Lists) : Prop where
  value : m.value = some a
  made : t.made = s.made ++ m.effects.filterMap Effect.made
  freed : ∃ f, t.freed = s.freed ++ f ∧ f.map t.entries = m.effects.filterMap Effect.released ∧
    ∀ i ∈ f, i < t.made.length

section

variable {α β : Type} {m : Io α} {f : α → Io β} {a : α} {b : β} {u : Lists}

theorem Follows.pure (a : α) (s : Lists) : Follows (pure a : Io α) a s s :=
  ⟨rfl, by simp, [], by simp⟩

theorem entries_append {l : List (List Direntry)} (h : t.made = s.made ++ l)
    (hi : i < s.made.length) : t.entries i = s.entries i := by
  rw [Lists.entries, Lists.entries, h, List.getD_append _ _ _ _ hi]

theorem Follows.bind (h : Follows m a s t) (hnext : Follows (f a) b t u) :
    Follows (m >>= f) b s u := by
  obtain ⟨xs, hxs, hxsEntries, hxsRange⟩ := h.freed
  obtain ⟨ys, hys, hysEntries, hysRange⟩ := hnext.freed
  have heffects : (m >>= f).effects = m.effects ++ (f a).effects := by
    rw [Traced.effects_bind, h.value]
    rfl
  refine ⟨?_, ?_, xs ++ ys, ?_, ?_, ?_⟩
  · rw [Traced.value_bind, h.value]
    exact hnext.value
  · rw [heffects, hnext.made, h.made, List.filterMap_append, List.append_assoc]
  · rw [hys, hxs, List.append_assoc]
  · have hsame : xs.map u.entries = xs.map t.entries :=
      List.map_congr_left fun i hi => entries_append hnext.made (hxsRange i hi)
    rw [heffects, List.map_append, List.filterMap_append, hsame, hxsEntries, hysEntries]
  · intro i hi
    rcases List.mem_append.mp hi with hi | hi
    · have hlt := hxsRange i hi
      rw [hnext.made, List.length_append]
      omega
    · exact hysRange i hi

end

theorem readClusters_posts (fs : Fat32) (fuel cluster : Nat) :
    (readClusters fs (fuel + 1) cluster ⟨[], []⟩).All
      fun e => ∃ address n, e = .post address n := by
  rw [readClusters]
  simp only [readBlocks, Traced.all_bind, Traced.all_emit, Traced.value_emit, Traced.value_bind,
    Traced.all_pure, Traced.value_pure, Option.bind_some, Option.some_inj, forall_eq']
  change _ ∧ (if (firstRecords fs cluster).2 then
    (pure (firstRecords fs cluster).1.entries : Io (List Direntry)) else _).All _
  split_ifs
  · simp
  · simp [Traced.all_bind, getNextCluster, readBlock, readBlocks]

theorem readDirectoryCluster_follows (fs : Fat32) (cluster : Nat) (s : Lists) :
    Follows (readDirectoryCluster fs cluster) (firstSector fs cluster) s
      (s.readDirectoryCluster (firstSector fs) cluster).2 := by
  have hposts := readClusters_posts fs (maxTurns - 1) cluster
  rw [show maxTurns - 1 + 1 = maxTurns from rfl] at hposts
  have hvalue : (readClusters fs maxTurns cluster ⟨[], []⟩).value = some (firstSector fs cluster) :=
    readClusters_value fs (maxTurns - 1) cluster
  have heffects : (readDirectoryCluster fs cluster).effects =
      (readClusters fs maxTurns cluster ⟨[], []⟩).effects ++
        [.listed (firstSector fs cluster)] := by
    rw [readDirectoryCluster, Traced.effects_bind, hvalue]
    rfl
  have hmade : (readClusters fs maxTurns cluster ⟨[], []⟩).effects.filterMap Effect.made = [] := by
    rw [List.filterMap_eq_nil_iff]
    intro e he
    obtain ⟨address, n, rfl⟩ := hposts e he
    rfl
  have hreleased :
      (readClusters fs maxTurns cluster ⟨[], []⟩).effects.filterMap Effect.released = [] := by
    rw [List.filterMap_eq_nil_iff]
    intro e he
    obtain ⟨address, n, rfl⟩ := hposts e he
    rfl
  refine ⟨readDirectoryCluster_value fs cluster, ?_, [], ?_, ?_, by simp⟩
  · rw [heffects, List.filterMap_append, hmade, Lists.readDirectoryCluster]
    cases hlist : firstSector fs cluster with
    | nil => simp [Effect.made]
    | cons e l => simp [Effect.made]
  · rw [Lists.readDirectoryCluster]
    split_ifs <;> simp
  · rw [heffects, List.filterMap_append, hreleased]
    rfl

theorem freeList_follows {c : Nat} (hc : c < s.made.length) :
    Follows (freeList (s.entries c)) () s (s.freeList (some c)) := by
  refine ⟨rfl, ?_, [c], rfl, rfl, ?_⟩
  · simp [Lists.freeList, freeList, Traced.emit, Effect.made]
  · intro i hi
    rw [List.mem_singleton.mp hi]
    exact hc

theorem read_length (s : Lists) (cluster : Nat) :
    s.made.length ≤ (s.readDirectoryCluster listOf cluster).2.made.length := by
  unfold Lists.readDirectoryCluster
  split_ifs <;> simp

/-- The walk over lists makes and releases what the driver's walk does. -/
theorem walkLists_follows {fs : Fat32} {fuel : Nat} {path : Kstring} (h : Accounted s p)
    (hwalk : walkLists (firstSector fs) fuel path p s = some (ret, t)) :
    Follows (walkPath fs fuel path (s.entriesOf p)) (t.entriesOf ret) s t := by
  induction fuel generalizing path p s with
  | zero => simp [walkLists] at hwalk
  | succ fuel ih =>
    cases p with
    | none =>
      simp only [walkLists, Option.some.injEq, Prod.mk.injEq] at hwalk
      obtain ⟨rfl, rfl⟩ := hwalk
      exact Follows.pure [] s
    | some c =>
      have hc := h.held c rfl
      have hne : s.entriesOf (some c) ≠ [] := h.entries_ne_nil
      rw [walkLists] at hwalk
      rw [walkPath, if_neg hne]
      cases hindex : index path '/' with
      | none =>
        simp only [hindex] at hwalk
        simp only [Lists.entriesOf]
        cases hentry : findEntry path (s.entries c) with
        | none =>
          simp only [hentry, Option.some.injEq, Prod.mk.injEq] at hwalk
          obtain ⟨rfl, rfl⟩ := hwalk
          exact Follows.pure [] s
        | some temp =>
          simp only [hentry, Option.some.injEq, Prod.mk.injEq] at hwalk
          obtain ⟨rfl, rfl⟩ := hwalk
          have hread := readDirectoryCluster_follows fs temp.inode s
          have hlength := read_length (firstSector fs) s temp.inode
          have hfree := freeList_follows (Nat.lt_of_lt_of_le hc hlength)
          rw [entries_append hread.made hc] at hfree
          change Follows _ (Lists.entriesOf (Lists.freeList _ _) _) _ _
          rw [entriesOf_freeList, entriesOf_read]
          exact hread.bind (hfree.bind (Follows.pure _ _))
      | some slashIndex =>
        simp only [hindex] at hwalk
        simp only [Lists.entriesOf]
        cases hname : substring path 0 slashIndex with
        | none => simp [hname] at hwalk
        | some dirname =>
          simp only [hname, bind, Option.bind_some] at hwalk
          rw [Traced.ofOption_some_bind]
          cases hentry : findEntry dirname (s.entries c) with
          | none =>
            simp only [hentry, Option.some.injEq, Prod.mk.injEq] at hwalk
            obtain ⟨rfl, rfl⟩ := hwalk
            exact Follows.pure [] s
          | some nextEntry =>
            simp only [hentry] at hwalk
            by_cases hdir : nextEntry.entryType = .directory
            · simp only [hdir, ne_eq, not_true_eq_false, if_false] at hwalk ⊢
              have hrest := ih (h.exchange (firstSector fs) nextEntry.inode) hwalk
              rw [entriesOf_read] at hrest
              apply (freeList_follows hc).bind
              exact (readDirectoryCluster_follows fs nextEntry.inode _).bind hrest
            · simp only [hdir, ne_eq, not_false_eq_true, if_true, Option.some.injEq,
                Prod.mk.injEq] at hwalk ⊢
              obtain ⟨rfl, rfl⟩ := hwalk
              exact Follows.pure [] s

theorem readDirectoryLists_follows {fs : Fat32} {path : Kstring}
    (h : readDirectoryLists (firstSector fs) path ⟨[], []⟩ = some (ret, t)) :
    Follows (readDirectory fs path) (t.entriesOf ret) ⟨[], []⟩ t := by
  have hread := readDirectoryCluster_follows fs 2 ⟨[], []⟩
  by_cases hempty : relative path = []
  · rw [readDirectoryLists_of_empty _ hempty, Option.some.injEq] at h
    rw [readDirectory_of_empty hempty]
    rwa [← entriesOf_read (firstSector fs) ⟨[], []⟩ 2, h] at hread
  · rw [readDirectoryLists_of_relative _ hempty] at h
    have hwalk := walkLists_follows (accounted_start.read (firstSector fs) 2) h
    rw [entriesOf_read] at hwalk
    rw [readDirectory_of_relative rfl hempty]
    exact hread.bind hwalk

/-- A lookup in the directory that has been read releases its list and makes no other. -/
theorem Follows.released {fs : Fat32} {path : Kstring} {α : Type} {f : List Direntry → Io α}
    (h : readDirectoryLists (firstSector fs) path ⟨[], []⟩ = some (ret, t))
    (hempty : ∃ a, f [] = Pure.pure a)
    (hlist : ∀ l, l ≠ [] → ∃ a, f l = freeList l >>= fun _ => Pure.pure a) :
    ∃ a, Follows (readDirectory fs path >>= f) a ⟨[], []⟩ (t.freeList ret) := by
  have hread := readDirectoryLists_follows h
  obtain ⟨ret', t', hperform, hret, -⟩ := readDirectoryLists_resolves (firstSector fs) path
  rw [h] at hperform
  obtain ⟨rfl, rfl⟩ := Prod.mk.inj (Option.some.inj hperform)
  cases ret with
  | none =>
    obtain ⟨a, ha⟩ := hempty
    refine ⟨a, hread.bind ?_⟩
    rw [Lists.entriesOf, ha]
    exact Follows.pure a t
  | some c =>
    have haccounted := hret.resolve_left (by simp)
    obtain ⟨a, ha⟩ := hlist (t.entries c) haccounted.entries_ne_nil
    refine ⟨a, hread.bind ?_⟩
    rw [Lists.entriesOf, ha]
    exact (freeList_follows (haccounted.held c rfl)).bind (Follows.pure a _)

theorem exists_filename {path dir : Kstring} (h : dirname path = some dir) :
    ∃ name, filename path = some name := by
  obtain ⟨i, hi, -⟩ := Option.bind_eq_some_iff.mp h
  exact ⟨path.drop (i + 1), by simp [filename, hi]⟩

theorem lookupLists_some {path : Kstring}
    (h : lookupLists listOf path ⟨[], []⟩ = some (ret, t)) :
    ∃ dir contents u, dirname path = some dir ∧
      readDirectoryLists listOf dir ⟨[], []⟩ = some (contents, u) ∧
      ret = none ∧ t = u.freeList contents := by
  obtain ⟨dir, hdir, hread⟩ := Option.bind_eq_some_iff.mp h
  obtain ⟨⟨contents, u⟩, hcontents, hfree⟩ := Option.bind_eq_some_iff.mp hread
  obtain ⟨rfl, rfl⟩ := Prod.mk.inj (Option.some.inj hfree)
  exact ⟨dir, contents, u, hdir, hcontents, rfl, rfl⟩

theorem openFile_follows {fs : Fat32} {path : Kstring}
    (h : lookupLists (firstSector fs) path ⟨[], []⟩ = some (ret, t)) :
    ∃ a, Follows (openFile fs path) a ⟨[], []⟩ t := by
  obtain ⟨dir, contents, u, hdir, hread, -, rfl⟩ := lookupLists_some (firstSector fs) h
  obtain ⟨name, hname⟩ := exists_filename hdir
  rw [openFile, hdir, hname, Traced.ofOption_some_bind, Traced.ofOption_some_bind]
  apply Follows.released hread
  · exact ⟨_, rfl⟩
  · intro l hl
    rw [if_neg hl]
    cases findEntry name l with
    | none => exact ⟨_, rfl⟩
    | some e => exact ⟨_, rfl⟩

theorem fileExists_follows {fs : Fat32} {path : Kstring}
    (h : lookupLists (firstSector fs) path ⟨[], []⟩ = some (ret, t)) :
    ∃ a, Follows (fileExists fs path) a ⟨[], []⟩ t := by
  obtain ⟨dir, contents, u, hdir, hread, -, rfl⟩ := lookupLists_some (firstSector fs) h
  obtain ⟨name, hname⟩ := exists_filename hdir
  rw [fileExists, hdir, hname, Traced.ofOption_some_bind]
  apply Follows.released hread
  · exact ⟨_, rfl⟩
  · intro l hl
    rw [if_neg hl, Traced.ofOption_some_bind]
    cases findEntry name l with
    | none => exact ⟨_, rfl⟩
    | some e => exact ⟨_, rfl⟩

/-! ## The accounting of a call -/

theorem lookupLists_resolves {path dir : Kstring} (hdir : dirname path = some dir) :
    ∃ ret t, lookupLists listOf path ⟨[], []⟩ = some (ret, t) ∧
      (Accounted t ret ↔ PathResolves listOf dir) := by
  obtain ⟨contents, u, hread, hcontents, hiff⟩ := readDirectoryLists_resolves listOf dir
  have hheld : ∀ i ∈ contents, i < u.made.length := by
    cases hcontents with
    | inl hnone => simp [hnone]
    | inr haccounted => exact haccounted.held
  refine ⟨none, u.freeList contents, ?_, (accounted_freeList hheld).trans hiff⟩
  simp [lookupLists, hdir, hread]

/-- For every volume and every call: when the call returns, each list that was made is the one
that is returned, or has been released exactly once, if and only if the path of the directory
resolves. -/
theorem lists_released_iff (fs : Fat32) (call : ListCall) :
    (∀ ret t, call.perform (firstSector fs) = some (ret, t) → Accounted t ret) ↔
      ∀ dir ∈ call.directory, PathResolves (firstSector fs) dir := by
  have hcall : ∀ dir ∈ call.directory, ∃ ret t, call.perform (firstSector fs) = some (ret, t) ∧
      (Accounted t ret ↔ PathResolves (firstSector fs) dir) := by
    intro dir hdir
    cases call with
    | readDirectory path =>
      obtain rfl := Option.some.inj hdir
      obtain ⟨ret, t, hperform, -, hiff⟩ := readDirectoryLists_resolves (firstSector fs) path
      exact ⟨ret, t, hperform, hiff⟩
    | openFile path => exact lookupLists_resolves (firstSector fs) hdir
    | fileExists path => exact lookupLists_resolves (firstSector fs) hdir
  constructor
  · intro h dir hdir
    obtain ⟨ret, t, hperform, hiff⟩ := hcall dir hdir
    exact hiff.mp (h ret t hperform)
  · intro h ret t hperform
    have hdirectory : ∃ dir, call.directory = some dir := by
      cases call with
      | readDirectory path => exact ⟨path, rfl⟩
      | openFile path =>
        obtain ⟨dir, -, -, hdir, -⟩ := lookupLists_some (firstSector fs) hperform
        exact ⟨dir, hdir⟩
      | fileExists path =>
        obtain ⟨dir, -, -, hdir, -⟩ := lookupLists_some (firstSector fs) hperform
        exact ⟨dir, hdir⟩
    obtain ⟨dir, hdir⟩ := hdirectory
    obtain ⟨ret', t', hperform', hiff⟩ := hcall dir hdir
    rw [hperform] at hperform'
    obtain ⟨rfl, rfl⟩ := Prod.mk.inj (Option.some.inj hperform')
    exact hiff.mpr (h dir hdir)

/-- Nothing is named `x` in the root directory of the small volume, and its list is forgotten. -/
theorem smallVolume_forgotten : ¬ ∀ (part : Partition) (fs : Fat32),
    (construct part).value = some (.ok fs) → ∀ call ret t,
      ListCall.perform (firstSector fs) call = some (ret, t) → Accounted t ret := by
  intro hclaim
  have hperform : ListCall.perform (firstSector smallVolume) (.readDirectory ['/', 'x']) =
      some (none, ⟨[firstSector smallVolume 2], []⟩) := by decide +kernel
  have haccounted := hclaim smallPartition smallVolume smallVolume_mounted _ _ _ hperform
  have hreleased := haccounted.released 0 (by simp)
  simp at hreleased

end WagtailFat32
