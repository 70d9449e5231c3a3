import Mathlib.Algebra.BigOperators.Group.List.Basic
import Wagtail.FatVolume
import Wagtail.VfsRouting

/-!
# What is mounted

The list of mountpoints in memory holds every mount of a run once, and a sum
over it, such as that of the free space, is a sum over the mounts.
-/
namespace WagtailVfs

open WagtailKstring
open WagtailFilesystem (blockSize le32 wrap64 Io)
open WagtailFat32 (Fat32)
open Word (wrap)
open Links (Seg)
open Runs (Run)

variable {φ : Type} {v : Vfs φ} {s t : State φ} {c : Call φ} {l : List (Mount φ)}

/-! ## The list after a run -/

/-- The mounts are linked both ways in this order: each of them once, the longest paths first,
and the root mount that was made first at the end. -/
structure Listed (s : State φ) (l : List (Mount φ)) : Prop where
  represents : Represents s.vfs l
  once : l.Perm s.mounts
  descending : l.Pairwise fun m m' => m'.path.length ≤ m.path.length
  last : l.getLast? = s.mounts.getLast?
  root : ∀ m ∈ l.getLast?, m.path = ['/']

/-- What the calls of a run keep. -/
def InOrder (s : State φ) : Prop :=
  ∃ l, Represents s.vfs l ∧ Ordered l ∧ l.Perm s.mounts ∧ l.getLast? = s.mounts.getLast?

theorem InOrder.listed (h : InOrder s) : ∃ l, Listed s l := by
  obtain ⟨l, hrep, hord, hperm, hlast⟩ := h
  exact ⟨l, hrep, hperm, hord.descending, hlast, fun m hm => hord.root m hm⟩

theorem InOrder.step (h : InOrder s) (hstep : Step s c t) : InOrder t := by
  obtain ⟨l, hrep, hord, hperm, hlast⟩ := h
  obtain ⟨hc, hperform⟩ := hstep
  obtain ⟨t', ht', hcases⟩ := hrep.perform hord hperm hc
  obtain rfl : t' = t := Option.some.inj (ht'.symm.trans hperform)
  cases hcases with
  | inl hsame =>
    obtain ⟨hmounts, hrep'⟩ := hsame
    exact ⟨l, hrep', hord, hmounts ▸ hperm, hmounts ▸ hlast⟩
  | inr hnew =>
    obtain ⟨m, hmounts, hrep', hord'⟩ := hnew
    refine ⟨_, hrep', hord', ?_, ?_⟩
    · rw [hmounts]
      exact Ranked.insert_perm.trans (hperm.cons m)
    · rw [hmounts]
      by_cases hl : l = []
      · subst hl
        rw [hperm.nil_eq.symm]
        rfl
      · have hs : s.mounts ≠ [] := fun he => hl (List.perm_nil.mp (he ▸ hperm))
        rw [Ranked.insert_getLast? hl, hlast, List.getLast?_cons_of_ne_nil hs]

/-- After every run of mounts the list in memory holds the mounts that were made, each once and
in order. -/
theorem run_listed {memory : Nat → Mountpoint φ} {calls : List (Call φ)}
    (hrun : Run Step (initial memory) calls s) : ∃ l, Listed s l := by
  refine (hrun.invariant (I := InOrder) ?_ fun t c u h hstep => h.step hstep).listed
  exact ⟨[], ⟨rfl, trivial, by simp, by simp, by simp, by simp⟩, ⟨.nil, by simp, by simp⟩, .refl _,
    rfl⟩

/-- The root filesystem and another one. -/
theorem mnt_listed : ∃ l, Listed afterMnt l := run_listed mnt_run

/-! ## Free space -/

/-- The loop adds up what the filesystems report, in 64 bits. -/
theorem addFreeSpace_value {method : φ → Io Nat} {space : φ → Nat}
    (hspace : ∀ fs, (method fs).value = some (space fs)) (retval : Nat) {q fuel : Nat}
    (hlinked : Seg (fun a => (v.mountpoint a).next) (fun a => (v.mountpoint a).prev) q
      (l.map Mount.address) 0)
    (hfs : ∀ m ∈ l, (v.mountpoint m.address).fs = m.fs) (haddr : ∀ m ∈ l, 0 < m.address)
    (hfuel : l.length < fuel) (hretval : retval < 2 ^ 64) :
    (addFreeSpace v method fuel retval ((l.map Mount.address).headD 0)).value =
      some (wrap64 (retval + (l.map fun m => space m.fs).sum)) := by
  induction l generalizing q fuel retval with
  | nil =>
    obtain ⟨fuel, rfl⟩ : ∃ n, fuel = n + 1 := ⟨fuel - 1, by omega⟩
    simpa [addFreeSpace, wrap64] using (Nat.mod_eq_of_lt hretval).symm
  | cons m l ih =>
    obtain ⟨fuel, rfl⟩ : ∃ n, fuel = n + 1 := ⟨fuel - 1, by omega⟩
    obtain ⟨-, hnext, hlinked⟩ := hlinked
    have hm := Nat.pos_iff_ne_zero.mp (haddr m (by simp))
    simp only [List.map_cons, List.headD_cons] at hnext ⊢
    have hrest := ih (wrap64 (retval + space m.fs)) hlinked
      (fun m hm => hfs m (List.mem_cons_of_mem _ hm))
      (fun m hm => haddr m (List.mem_cons_of_mem _ hm)) (by simpa using hfuel)
      (Nat.mod_lt _ (by decide))
    rw [addFreeSpace, if_neg hm, Traced.value_bind, hfs m (by simp), hspace, Option.bind_some,
      hnext, hrest]
    simp only [List.sum_cons, wrap64, Nat.mod_add_mod, Nat.add_assoc]

/-- The number of free clusters in the FSInfo sector. -/
def freeCount (fs : Fat32) : Nat :=
  le32 (fun i => fs.partition.disk (wrap (wrap fs.fsinfoSector + i / blockSize)) (i % blockSize)) 488

/-- The bytes that the free clusters of a volume hold. -/
def freeBytes (fs : Fat32) : Nat := freeCount fs * fs.sectorsPerCluster * blockSize

/-- What a filesystem reports: a product of 32 bits. -/
def reported (fs : Fat32) : Nat := if freeCount fs ≠ 0xffffffff then wrap (freeBytes fs) else 0

theorem getFreeSpace_reported (fs : Fat32) :
    (WagtailFat32.getFreeSpace fs).value = some (reported fs) := by
  have hproduct : wrap (wrap (fs.sectorsPerCluster * freeCount fs) * blockSize) =
      wrap (freeBytes fs) := by
    rw [freeBytes, Nat.mul_comm (freeCount fs)]
    exact Nat.mod_mul_mod _ _ _
  rw [reported, ← hproduct]
  rfl

/-- The sum over the list in memory is the sum over the mounts. -/
theorem getFreeSpace_sum {memory : Nat → Mountpoint Fat32} {calls : List (Call Fat32)}
    {s : State Fat32} (hrun : Run Step (initial memory) calls s) :
    (getFreeSpace s.vfs WagtailFat32.getFreeSpace).value =
      some (wrap64 (s.mounts.map fun m => reported m.fs).sum) := by
  obtain ⟨l, hl⟩ := run_listed hrun
  have hrep := hl.represents
  have hsum := addFreeSpace_value (v := s.vfs) getFreeSpace_reported 0 hrep.linked hrep.fs
    (fun m hm => (hrep.address m hm).1) hrep.length_lt (by decide)
  rw [← hrep.first, Nat.zero_add] at hsum
  rw [getFreeSpace, hsum, (hl.once.map fun m => reported m.fs).sum_eq]

/-- After every run of mounts of volumes that know their free clusters, the sum is exact if and
only if no volume has 4 GiB free. -/
theorem getFreeSpace_exact_iff {memory : Nat → Mountpoint Fat32} {calls : List (Call Fat32)}
    {s : State Fat32} (hrun : Run Step (initial memory) calls s)
    (hknown : ∀ m ∈ s.mounts, freeCount m.fs ≠ 0xffffffff) :
    (getFreeSpace s.vfs WagtailFat32.getFreeSpace).value =
        some (s.mounts.map fun m => freeBytes m.fs).sum ↔
      ∀ m ∈ s.mounts, freeBytes m.fs < 2 ^ 32 := by
  have hreported : s.mounts.map (fun m => reported m.fs) =
      s.mounts.map fun m => wrap (freeBytes m.fs) :=
    List.map_congr_left fun m hm => if_pos (hknown m hm)
  obtain ⟨l, hl⟩ := run_listed hrun
  have hlength : s.mounts.length < 2 ^ 32 := hl.once.length_eq ▸ hl.represents.length_lt
  have hlt := Word.sum_wrap_lt (f := fun m : Mount Fat32 => freeBytes m.fs) hlength
  rw [getFreeSpace_sum hrun, hreported, wrap64, Nat.mod_eq_of_lt hlt, Option.some_inj]
  exact Word.sum_wrap_eq_iff

/-! ## A volume of 8 GiB -/

/-- Its header, with eight sectors a cluster. -/
def spaciousHeader : WagtailFilesystem.Buffer
  | 0 => 0xeb
  | 12 => 2
  | 13 => 8
  | 14 => 32
  | 16 => 2
  | 35 => 1
  | 37 => 0x40
  | 44 => 2
  | 48 => 1
  | _ => 0

/-- The partition, with `free * 2 ^ 16` free clusters. -/
def spaciousPartition (free : UInt8) : WagtailFilesystem.Partition where
  start := 8
  stop := 8 + 2 ^ 24
  disk
    | 8, i => spaciousHeader i
    | 9, 490 => free
    | _, _ => 0

def spaciousVolume (free : UInt8) : Fat32 :=
  WagtailFat32.headerFields (spaciousPartition free)
    (WagtailFat32.headerSector (spaciousPartition free))

def spaciousCall (free : UInt8) : Call Fat32 := ⟨['/'], some (spaciousVolume free), 1024⟩

def spaceless : State Fat32 := initial fun _ => ⟨[], spaciousVolume 0, 0, 0⟩

/-- The volume is mounted on the root. -/
def afterSpacious (free : UInt8) : State Fat32 :=
  (perform spaceless (spaciousCall free)).getD spaceless

theorem spacious_run (free : UInt8) :
    Run Step spaceless [spaciousCall free] (afterSpacious free) := by
  have haddress : (0 : Nat) < 1024 ∧ 1024 < 2 ^ 32 := by decide
  exact .snoc .nil ⟨⟨rfl, haddress.1, haddress.2, by simp [spaceless, initial]⟩, rfl⟩

/-- With 15 / 16 of the limit free, the sum is exact. -/
theorem spacious_exact :
    (getFreeSpace (afterSpacious 15).vfs WagtailFat32.getFreeSpace).value = some (15 * 2 ^ 28) :=
  (getFreeSpace_exact_iff (spacious_run 15) (by decide +kernel)).mpr (by decide +kernel)

/-- A volume that the driver accepts has 4 GiB free, and reports none. -/
theorem spacious_wraps :
    (WagtailFat32.construct (spaciousPartition 16)).value = some (.ok (spaciousVolume 16)) ∧
      Run Step spaceless [spaciousCall 16] (afterSpacious 16) ∧
      ((afterSpacious 16).mounts.map fun m => freeBytes m.fs).sum = 2 ^ 32 ∧
      (getFreeSpace (afterSpacious 16).vfs WagtailFat32.getFreeSpace).value = some 0 := by
  refine ⟨WagtailFat32.construct_ok_iff.mpr ⟨by decide +kernel, rfl⟩, spacious_run 16, ?_, ?_⟩
  · decide +kernel
  · decide +kernel

end WagtailVfs
