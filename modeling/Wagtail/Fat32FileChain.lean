import Wagtail.Fat32FileRead

/-!
# Reading along a chain of clusters

The two loops of `fat32_file::read`, with the lookup of the next cluster and the
read of a cluster as they are given. Where these follow a chain, the loops deliver
the bytes of its clusters, one after the other.
-/
namespace WagtailFat32

open WagtailFilesystem

/-- The loops of `fat32_file::read`, with `fuel` turns for each. -/
def readLoops (next : Nat → Io Nat) (readCluster : Nat → Io Buffer) (bytesPerCluster fuel : Nat)
    (start : Nat) (buffer : Buffer) (size offset : Nat) : Io (Bool × Buffer) := do
  match ← skip next bytesPerCluster fuel start offset with
  | none => pure (false, buffer)
  | some (cluster, offset) => do
    let (_, buffer) ←
      copyClusters next readCluster bytesPerCluster size fuel cluster offset 0 buffer
    pure (true, buffer)

theorem read_eq_readLoops (file : Fat32File) (tempBuffer : TempBuffer) (buffer : Buffer)
    (size offset : Nat) :
    read file tempBuffer buffer size offset =
      readLoops (getNextCluster file.fs) (readTemp file.fs tempBuffer) file.bytesPerCluster
        maxTurns file.startInode buffer size offset := rfl

/-- The lookup follows these clusters up to the end, which it reports as cluster 0. -/
def LinksChain (next : Nat → Io Nat) : List Nat → Prop
  | [] => True
  | cluster :: clusters =>
    cluster ≠ 0 ∧ cluster ≠ 1 ∧ (next cluster).value = some (clusters.headD 0) ∧
      LinksChain next clusters

/-- A read of a cluster delivers its bytes. What the buffer holds behind them is not known. -/
def ReadsCluster (readCluster : Nat → Io Buffer) (data : Nat → Buffer) (bytesPerCluster : Nat)
    (cluster : Nat) : Prop :=
  ∃ temp, (readCluster cluster).value = some temp ∧ ∀ j < bytesPerCluster, temp j = data cluster j

/-- The bytes of the clusters, one cluster after the other. -/
def chainByte (data : Nat → Buffer) (bytesPerCluster : Nat) (clusters : List Nat) : Buffer :=
  fun i => data (clusters.getD (i / bytesPerCluster) 0) (i % bytesPerCluster)

variable {next : Nat → Io Nat} {readCluster : Nat → Io Buffer} {data : Nat → Buffer}
variable {bytesPerCluster fuel size : Nat} {clusters : List Nat} {cluster : Nat}

theorem chainByte_of_lt {i : Nat} (h : i < bytesPerCluster) :
    chainByte data bytesPerCluster (cluster :: clusters) i = data cluster i := by
  rw [chainByte, Nat.div_eq_of_lt h, Nat.mod_eq_of_lt h]
  rfl

theorem chainByte_add (hpos : 0 < bytesPerCluster) (i : Nat) :
    chainByte data bytesPerCluster (cluster :: clusters) (bytesPerCluster + i) =
      chainByte data bytesPerCluster clusters i := by
  rw [chainByte, Nat.add_div_left _ hpos, Nat.add_mod_left]
  rfl

/-- While there are clusters left, the lookup has not reached the end of the chain. -/
theorem LinksChain.follow (h : LinksChain next clusters) {n : Nat}
    (hn : n < clusters.length * bytesPerCluster) :
    ¬ (clusters.headD 0 = 0 ∨ clusters.headD 0 = 1) := by
  cases clusters with
  | nil => simp at hn
  | cons c _ => exact fun hend => hend.elim h.1 h.2.1

/-! ## Skipping -/

/-- The clusters whose successors the skip loop asks for. At a multiple of the cluster size
it stops one cluster early. -/
def skipped (bytesPerCluster offset : Nat) : Nat := (offset - 1) / bytesPerCluster

theorem skipped_of_le {offset : Nat} (hpos : 0 < bytesPerCluster) (h : offset ≤ bytesPerCluster) :
    skipped bytesPerCluster offset = 0 :=
  Nat.div_eq_of_lt (by omega)

theorem skipped_add {offset : Nat} (hpos : 0 < bytesPerCluster) (h : 0 < offset) :
    skipped bytesPerCluster (bytesPerCluster + offset) = skipped bytesPerCluster offset + 1 := by
  rw [skipped, skipped, Nat.add_sub_assoc h, Nat.add_div_left _ hpos]

theorem skip_chain (hpos : 0 < bytesPerCluster) (hchain : LinksChain next clusters) {offset : Nat}
    (hoffset : offset < clusters.length * bytesPerCluster) (hfuel : clusters.length ≤ fuel) :
    skip next bytesPerCluster fuel (clusters.headD 0) offset =
      ⟨(clusters.take (skipped bytesPerCluster offset)).flatMap fun c => (next c).effects,
        some (some (clusters.getD (skipped bytesPerCluster offset) 0,
          offset - skipped bytesPerCluster offset * bytesPerCluster))⟩ := by
  induction clusters generalizing offset fuel with
  | nil => simp at hoffset
  | cons cluster clusters ih =>
    obtain ⟨fuel, rfl⟩ : ∃ n, fuel = n + 1 := ⟨fuel - 1, by simp at hfuel; omega⟩
    rw [List.headD_cons, skip]
    by_cases hskip : offset > bytesPerCluster
    · obtain ⟨rest, rfl⟩ : ∃ rest, offset = bytesPerCluster + rest :=
        ⟨offset - bytesPerCluster, by omega⟩
      obtain ⟨-, -, hnext, hrest⟩ := hchain
      have hinside : rest < clusters.length * bytesPerCluster := by
        rw [List.length_cons, Nat.succ_mul] at hoffset
        omega
      rw [if_pos hskip, Traced.bind_of_value hnext, if_neg (hrest.follow hinside),
        Nat.add_sub_cancel_left, ih hrest hinside (by simpa using hfuel),
        skipped_add hpos (by omega)]
      have hleft : bytesPerCluster + rest - (skipped bytesPerCluster rest + 1) * bytesPerCluster =
          rest - skipped bytesPerCluster rest * bytesPerCluster := by
        rw [Nat.succ_mul]
        omega
      rw [List.take_succ_cons, List.flatMap_cons, List.getD_cons_succ, hleft]
    · rw [if_neg hskip, skipped_of_le hpos (by omega)]
      simp
      rfl

/-! ## Copying -/

/-- The clusters that the copy loop reads when it has to copy up to this place of the first one or
of those behind it. -/
def touched (bytesPerCluster stop : Nat) : Nat := (stop - 1) / bytesPerCluster + 1

theorem touched_of_le {stop : Nat} (hpos : 0 < bytesPerCluster) (h : stop ≤ bytesPerCluster) :
    touched bytesPerCluster stop = 1 := by
  rw [touched, Nat.div_eq_of_lt (by omega)]

theorem touched_add {stop : Nat} (hpos : 0 < bytesPerCluster) (h : 0 < stop) :
    touched bytesPerCluster (bytesPerCluster + stop) = touched bytesPerCluster stop + 1 := by
  rw [touched, touched, Nat.add_sub_assoc h, Nat.add_div_left _ hpos]

/-- The effects of copying from these clusters: each is read, and its successor looked up. -/
def copyEffects (next : Nat → Io Nat) (readCluster : Nat → Io Buffer) (clusters : List Nat) :
    List Effect :=
  clusters.flatMap fun c => (readCluster c).effects ++ (next c).effects

theorem copyClusters_done (fuel : Nat) (buffer : Buffer) {offset : Nat} :
    copyClusters next readCluster bytesPerCluster size (fuel + 1) cluster offset size buffer =
      pure (size, buffer) := by
  rw [copyClusters, if_neg (Nat.lt_irrefl size)]

/-- The bytes of one cluster, when no more are missing. -/
theorem copied_last (clusters : List Nat) {temp : Buffer}
    (hbytes : ∀ j < bytesPerCluster, temp j = data cluster j) {offset bytesRead : Nat}
    {buffer : Buffer} (hlast : offset + (size - bytesRead) ≤ bytesPerCluster) :
    (fun i => if bytesRead ≤ i ∧ i < size then temp (offset + (i - bytesRead)) else buffer i) =
      fun i => if bytesRead ≤ i ∧ i < size then
          chainByte data bytesPerCluster (cluster :: clusters) (offset + (i - bytesRead))
        else buffer i := by
  funext i
  refine ite_congr rfl (fun hi => ?_) fun _ => rfl
  rw [hbytes _ (by omega), chainByte_of_lt (by omega)]

/-- The bytes of one cluster, and those of the clusters behind it. -/
theorem copied_behind (hpos : 0 < bytesPerCluster) {temp : Buffer}
    (hbytes : ∀ j < bytesPerCluster, temp j = data cluster j) {offset bytesRead : Nat}
    {buffer : Buffer} (hoffset : offset ≤ bytesPerCluster)
    (hmore : bytesPerCluster < offset + (size - bytesRead)) :
    (fun i => if bytesRead + (bytesPerCluster - offset) ≤ i ∧ i < size then
          chainByte data bytesPerCluster clusters
            (0 + (i - (bytesRead + (bytesPerCluster - offset))))
        else if bytesRead ≤ i ∧ i < bytesRead + (bytesPerCluster - offset) then
          temp (offset + (i - bytesRead))
        else buffer i) =
      fun i => if bytesRead ≤ i ∧ i < size then
          chainByte data bytesPerCluster (cluster :: clusters) (offset + (i - bytesRead))
        else buffer i := by
  funext i
  by_cases hbehind : bytesRead + (bytesPerCluster - offset) ≤ i ∧ i < size
  · have hplace : offset + (i - bytesRead) =
        bytesPerCluster + (0 + (i - (bytesRead + (bytesPerCluster - offset)))) := by omega
    rw [if_pos hbehind, if_pos (by omega), hplace, chainByte_add hpos]
  · rw [if_neg hbehind]
    by_cases hin : bytesRead ≤ i ∧ i < bytesRead + (bytesPerCluster - offset)
    · rw [if_pos hin, if_pos (by omega), hbytes _ (by omega), chainByte_of_lt (by omega)]
    · rw [if_neg hin, if_neg (by omega)]

/-- From a place in the first cluster on, the loop copies as many bytes as are missing. -/
theorem copyClusters_chain (hpos : 0 < bytesPerCluster) (hchain : LinksChain next clusters)
    (hdata : ∀ c ∈ clusters, ReadsCluster readCluster data bytesPerCluster c)
    {offset bytesRead : Nat} (buffer : Buffer) (hoffset : offset ≤ bytesPerCluster)
    (hmissing : bytesRead < size)
    (hend : offset + (size - bytesRead) ≤ clusters.length * bytesPerCluster)
    (hfuel : clusters.length < fuel) :
    copyClusters next readCluster bytesPerCluster size fuel (clusters.headD 0) offset bytesRead
        buffer =
      ⟨copyEffects next readCluster
          (clusters.take (touched bytesPerCluster (offset + (size - bytesRead)))),
        some (size, fun i =>
          if bytesRead ≤ i ∧ i < size then
            chainByte data bytesPerCluster clusters (offset + (i - bytesRead))
          else buffer i)⟩ := by
  induction clusters generalizing offset bytesRead buffer fuel with
  | nil =>
    rw [List.length_nil, Nat.zero_mul] at hend
    omega
  | cons cluster clusters ih =>
    obtain ⟨fuel, rfl⟩ : ∃ n, fuel = n + 2 := ⟨fuel - 2, by simp at hfuel; omega⟩
    obtain ⟨temp, htemp, hbytes⟩ := hdata cluster (by simp)
    obtain ⟨-, -, hnext, hrest⟩ := hchain
    rw [List.headD_cons, copyClusters, if_pos hmissing, Traced.bind_of_value htemp,
      copyBytes_eq _ _ _ _ _ _ hmissing.le]
    simp only [Traced.bind_of_value hnext]
    by_cases hlast : offset + (size - bytesRead) ≤ bytesPerCluster
    · -- The rest lies in this cluster.
      have hcopied : bytesRead + min (bytesPerCluster - offset) (size - bytesRead) = size := by
        omega
      simp only [hcopied]
      rw [if_neg fun h => Nat.lt_irrefl size h.2, copyClusters_done, touched_of_le hpos hlast]
      rw [copied_last clusters hbytes hlast]
      simp [copyEffects]
    · -- This cluster is copied to its end.
      have hcopied : min (bytesPerCluster - offset) (size - bytesRead) =
          bytesPerCluster - offset := by omega
      have hinside : 0 + (size - (bytesRead + (bytesPerCluster - offset))) ≤
          clusters.length * bytesPerCluster := by
        rw [List.length_cons, Nat.succ_mul] at hend
        omega
      have hfollow : ¬ (clusters.headD 0 = 0 ∨ clusters.headD 0 = 1) :=
        hrest.follow (by omega : size - (bytesRead + (bytesPerCluster - offset)) - 1 <
          clusters.length * bytesPerCluster)
      have htouched : touched bytesPerCluster (offset + (size - bytesRead)) =
          touched bytesPerCluster (0 + (size - (bytesRead + (bytesPerCluster - offset)))) + 1 := by
        rw [← touched_add hpos (by omega)]
        congr 1
        omega
      simp only [hcopied]
      rw [if_neg fun h => hfollow h.1,
        ih hrest (fun c hc => hdata c (List.mem_cons_of_mem _ hc)) _ (Nat.zero_le _) (by omega)
          hinside (by simpa using hfuel), htouched]
      rw [copied_behind hpos hbytes hoffset (Nat.lt_of_not_le hlast)]
      simp [copyEffects]

/-! ## Reading -/

theorem LinksChain.drop (h : LinksChain next clusters) (n : Nat) :
    LinksChain next (clusters.drop n) := by
  induction clusters generalizing n with
  | nil => simpa using h
  | cons cluster clusters ih =>
    cases n with
    | zero => exact h
    | succ n => exact ih h.2.2.2 n

theorem chainByte_drop (hpos : 0 < bytesPerCluster) (clusters : List Nat) (n i : Nat) :
    chainByte data bytesPerCluster (clusters.drop n) i =
      chainByte data bytesPerCluster clusters (n * bytesPerCluster + i) := by
  have hindex : (n * bytesPerCluster + i) / bytesPerCluster = n + i / bytesPerCluster := by
    rw [Nat.add_comm, Nat.add_mul_div_right _ _ hpos, Nat.add_comm]
  rw [chainByte, chainByte, hindex, Nat.mul_add_mod_self_right]
  simp [List.getD_eq_getElem?_getD]

/-- The offset that is left, in the cluster where the skip loop stops. -/
theorem skipped_spec (hpos : 0 < bytesPerCluster) (offset : Nat) :
    skipped bytesPerCluster offset * bytesPerCluster ≤ offset ∧
      offset ≤ skipped bytesPerCluster offset * bytesPerCluster + bytesPerCluster := by
  have hle := Nat.div_mul_le_self (offset - 1) bytesPerCluster
  have hlt := Nat.lt_div_mul_add (a := offset - 1) hpos
  rw [skipped]
  omega

/-- Reading along a chain delivers the bytes of its clusters. The only effects are those of reading
and looking up clusters of the chain; off the chain nothing need return. What the temporary buffer
holds behind the bytes of a cluster is never seen. -/
theorem readLoops_chain (hpos : 0 < bytesPerCluster) (hchain : LinksChain next clusters)
    (hdata : ∀ c ∈ clusters, ReadsCluster readCluster data bytesPerCluster c) (buffer : Buffer)
    {offset : Nat} (hsize : 1 ≤ size) (hend : offset + size ≤ clusters.length * bytesPerCluster)
    (hfuel : clusters.length < fuel) :
    readLoops next readCluster bytesPerCluster fuel (clusters.headD 0) buffer size offset =
      ⟨((clusters.take (skipped bytesPerCluster offset)).flatMap fun c => (next c).effects) ++
          copyEffects next readCluster
            ((clusters.drop (skipped bytesPerCluster offset)).take (touched bytesPerCluster
              (offset - skipped bytesPerCluster offset * bytesPerCluster + size))),
        some (true, fun i =>
          if i < size then chainByte data bytesPerCluster clusters (offset + i)
          else buffer i)⟩ := by
  obtain ⟨hlow, hhigh⟩ := skipped_spec hpos offset
  have hskip := skip_chain hpos hchain (by omega : offset < _) hfuel.le
  have hlength : (clusters.drop (skipped bytesPerCluster offset)).length * bytesPerCluster =
      clusters.length * bytesPerCluster - skipped bytesPerCluster offset * bytesPerCluster := by
    rw [List.length_drop, Nat.sub_mul]
  have hhead : clusters.getD (skipped bytesPerCluster offset) 0 =
      (clusters.drop (skipped bytesPerCluster offset)).headD 0 := by
    simp [List.headD_eq_head?_getD, List.getD_eq_getElem?_getD]
  have hcopy := copyClusters_chain hpos (hchain.drop (skipped bytesPerCluster offset))
    (fun c hc => hdata c (List.mem_of_mem_drop hc)) buffer
    (by omega : offset - skipped bytesPerCluster offset * bytesPerCluster ≤ bytesPerCluster)
    (by omega : 0 < size) (by omega) (by rw [List.length_drop]; omega : _ < fuel)
  rw [readLoops, hskip, Traced.bind_of_value rfl]
  simp only [hhead, hcopy]
  rw [Traced.bind_of_value rfl]
  have hplace : ∀ i, skipped bytesPerCluster offset * bytesPerCluster +
      (offset - skipped bytesPerCluster offset * bytesPerCluster + i) = offset + i := by
    intro i
    omega
  simp [chainByte_drop hpos, hplace]

/-- Three clusters of two bytes, and three bytes from the start of the second one. -/
theorem readLoops_three :
    (readLoops (fun c => pure (if c = 9 then 4 else if c = 4 then 7 else 0))
      (fun c => pure fun j => UInt8.ofNat (10 * c + j)) 2 4 9 (fun _ => 0) 3 2).value =
      some (true, fun i => if i < 3 then
        chainByte (fun c j => UInt8.ofNat (10 * c + j)) 2 [9, 4, 7] (2 + i) else 0) := by
  have hchain : LinksChain (fun c => pure (if c = 9 then 4 else if c = 4 then 7 else 0))
      [9, 4, 7] :=
    ⟨by decide, by decide, rfl, by decide, by decide, rfl, by decide, by decide, rfl, trivial⟩
  have hread := readLoops_chain (by decide : 0 < 2) hchain
    (fun c _ => (⟨_, rfl, fun _ _ => rfl⟩ : ReadsCluster
      (fun c => pure fun j => UInt8.ofNat (10 * c + j)) (fun c j => UInt8.ofNat (10 * c + j)) 2 c))
    (fun _ => 0) (by decide : 1 ≤ 3) (by decide : 2 + 3 ≤ 3 * 2) (by decide : 3 < 4)
  exact congrArg Traced.value hread

end WagtailFat32
