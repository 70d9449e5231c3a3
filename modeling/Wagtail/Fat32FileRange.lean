import Wagtail.Fat32FileRead

/-!
# What a read that returns true has read

The result of `fat32_file::read` for any range, also one that reaches behind the file or
behind the last of its clusters.
-/
namespace WagtailFat32

open WagtailFilesystem

/-- The call returns, true only for a range of the file whose bytes it has copied, and false for
one that reaches behind the file or behind its clusters, whatever memory held before. -/
def Honest (file : Fat32File) (clusters : List Nat) (heap : Bool) (n offset : Nat) : Prop :=
  ∀ memory buffer : Buffer, ∃ r result,
    (read file ⟨heap, memory⟩ buffer n offset).value = some (r, result) ∧
    (r = true → offset + n ≤ file.size ∧
      ∀ i < n, result i = fileByte file.fs clusters (offset + i)) ∧
    (file.size < offset + n ∨ clusters.length * clusterBytes file.fs < offset + n → r = false)

section Range

variable {file : Fat32File} {clusters : List Nat} {heap : Bool} {n offset : Nat}

theorem honest_skipped (hoffset : file.bytesPerCluster < offset) :
    Honest file clusters heap n offset := by
  intro memory buffer
  refine ⟨false, buffer, read_skipped file _ _ hoffset, fun htrue => ?_, fun _ => rfl⟩
  exact absurd htrue Bool.false_ne_true

theorem honest_empty_iff (hoffset : offset ≤ file.bytesPerCluster) :
    Honest file clusters heap 0 offset ↔
      offset ≤ file.size ∧ offset ≤ clusters.length * clusterBytes file.fs := by
  have hempty : ∀ memory buffer : Buffer,
      (read file ⟨heap, memory⟩ buffer 0 offset).value = some (true, buffer) :=
    fun memory buffer => by rw [read_empty, decide_eq_true hoffset]
  constructor
  · intro hhonest
    obtain ⟨r, result, hvalue, hrange, hbehind⟩ := hhonest (fun _ => 0) (fun _ => 0)
    rw [hempty] at hvalue
    obtain ⟨rfl, -⟩ := Prod.mk.inj (Option.some.inj hvalue)
    refine ⟨(hrange rfl).1, ?_⟩
    by_contra hlt
    exact absurd (hbehind (.inr (by omega))) Bool.noConfusion
  · rintro ⟨hsize, hclusters⟩ memory buffer
    exact ⟨true, buffer, hempty memory buffer,
      fun _ => ⟨by omega, fun i hi => absurd hi (Nat.not_lt_zero i)⟩, fun hbehind => by omega⟩

/-- A read of at least one byte that is not skipped returns true, so it has to deliver. -/
theorem honest_served_iff (hoffset : offset ≤ file.bytesPerCluster) (hn : 0 < n) :
    Honest file clusters heap n offset ↔ ReadsBytes file clusters heap n offset ∧
      offset + n ≤ file.size ∧ offset + n ≤ clusters.length * clusterBytes file.fs := by
  have hserved := fun memory buffer => read_value file ⟨heap, memory⟩ buffer hoffset hn
  constructor
  · intro hhonest
    have htrue : ∀ memory buffer : Buffer, ∃ result,
        (read file ⟨heap, memory⟩ buffer n offset).value = some (true, result) ∧
        (offset + n ≤ file.size ∧ ∀ i < n, result i = fileByte file.fs clusters (offset + i)) ∧
        ¬clusters.length * clusterBytes file.fs < offset + n := by
      intro memory buffer
      obtain ⟨r, result, hvalue, hrange, hbehind⟩ := hhonest memory buffer
      rw [hserved] at hvalue
      obtain ⟨rfl, rfl⟩ := Prod.mk.inj (Option.some.inj hvalue)
      exact ⟨_, hserved memory buffer, hrange rfl, fun hlt => Bool.noConfusion (hbehind (.inr hlt))⟩
    obtain ⟨-, -, ⟨hsize, -⟩, hclusters⟩ := htrue (fun _ => 0) (fun _ => 0)
    refine ⟨fun memory buffer => ?_, hsize, by omega⟩
    obtain ⟨result, hvalue, ⟨-, hbytes⟩, -⟩ := htrue memory buffer
    refine ⟨result, hvalue, fun i => ?_⟩
    by_cases hi : i < n
    · rw [if_pos hi]
      exact hbytes i hi
    · rw [hserved] at hvalue
      obtain ⟨-, rfl⟩ := Prod.mk.inj (Option.some.inj hvalue)
      rw [if_neg hi]
      exact if_neg (by omega)
  · rintro ⟨hreads, hsize, hclusters⟩ memory buffer
    obtain ⟨result, hvalue, hresult⟩ := hreads memory buffer
    refine ⟨true, result, hvalue, fun _ => ⟨hsize, fun i hi => ?_⟩, fun hbehind => by omega⟩
    rw [hresult, if_pos hi]

end Range

/-- Exactly when the result of a read is the right one, for any file on a mounted volume. -/
theorem read_honest_iff {part : Partition} {fs : Fat32} {start fileSize : Nat}
    {clusters : List Nat} (h : (construct part).value = some (.ok fs))
    (hcard : part.stop ≤ 2 ^ 32) (hpos : 0 < fs.sectorsPerCluster)
    (path : WagtailKstring.Kstring) (hstart : start < 2 ^ 32)
    (hchain : 0 < fileSize → chain fs maxTurns start = some clusters) (heap : Bool)
    (n offset : Nat) :
    Honest (newFat32File path fs fileSize start) clusters heap n offset ↔
      Word.wrap (512 <<< (fs.sectorsPerCluster - 1)) < offset ∨
      n = 0 ∧ offset ≤ fileSize ∧ offset ≤ clusters.length * clusterBytes fs ∨
      0 < n ∧ heap = true ∧ offset + n ≤ fileSize ∧
        offset + n ≤ Word.wrap (512 <<< (fs.sectorsPerCluster - 1)) ∧
        offset + n ≤ clusterBytes fs := by
  have hmounted := construct_mounted h
  rw [← bytesPerCluster_eq hmounted hpos path fileSize start]
  by_cases hoffset : (newFat32File path fs fileSize start).bytesPerCluster < offset
  · exact iff_of_true (honest_skipped hoffset) (.inl hoffset)
  · have hle := Nat.le_of_not_lt hoffset
    rw [or_iff_right hoffset]
    rcases Nat.eq_zero_or_pos n with rfl | hn
    · rw [honest_empty_iff hle, or_iff_left (fun hcase => absurd hcase.1 (Nat.lt_irrefl 0)),
        and_iff_right rfl]
      rfl
    · rw [or_iff_right (fun hcase => absurd hcase.1 (Nat.ne_of_gt hn)), and_iff_right hn]
      rw [honest_served_iff hle hn]
      constructor
      · rintro ⟨hreads, hsize, -⟩
        have hheap := heap_of_readsBytes hn hle hreads
        have hbytes := le_bytesPerCluster_of_readsBytes hn hreads
        have hfirst := le_clusterBytes_of_readsBytes hn hreads
        exact ⟨hheap, hsize, hbytes, hfirst⟩
      · rintro ⟨rfl, hsize, hbytes, hfirst⟩
        have hclusters := hchain (by omega)
        obtain ⟨-, rest, rfl⟩ := chain_head hclusters
        refine ⟨readsBytes_of_le hmounted hcard hstart hclusters hn hbytes hfirst, hsize, ?_⟩
        exact Nat.le_trans hfirst (Nat.le_mul_of_pos_left _ (by simp))

theorem smallVolume_honest :
    Honest (newFat32File ['/', 'f'] smallVolume 1024 3) [3, 4] true 500 12 :=
  (read_honest_iff smallVolume_mounted (by decide) (by decide +kernel) ['/', 'f'] (by decide)
    (fun _ => by decide +kernel) true 500 12).mpr
    (.inr (.inr ⟨by decide, rfl, by decide, by decide +kernel, by decide +kernel⟩))

/-- A byte behind the end of the file, and a file whose second half is not copied. -/
theorem smallVolume_dishonest :
    ¬Honest (newFat32File ['/', 'f'] smallVolume 1024 3) [3, 4] true 1025 0 ∧
      ¬Honest (newFat32File ['/', 'f'] smallVolume 1024 3) [3, 4] true 1024 0 := by
  have hoffset : 0 ≤ (newFat32File ['/', 'f'] smallVolume 1024 3).bytesPerCluster := Nat.zero_le _
  constructor
  · rw [honest_served_iff hoffset (by decide)]
    rintro ⟨-, hsize, -⟩
    exact absurd hsize (by decide)
  · rw [honest_served_iff hoffset (by decide)]
    rintro ⟨hreads, -, -⟩
    exact absurd (le_bytesPerCluster_of_readsBytes (by decide) hreads) (by decide +kernel)

end WagtailFat32
