import Wagtail.HeapBlocks

/-!
# The calls of the kernel heap

`allocate` is a first-fit placement and `free` a release, on the list of cells
that the memory represents. A search that finds no block for the request leaves
the heap alone, but not always a null return address.
-/
namespace WagtailHeap

open Word (wrap sub wrap_of_lt sub_of_le)
open FirstFit

variable {m : Mm} {lo hi size k fuel : Nat} {c d : Cell} {l l₁ l₂ : List Cell}

/-! ## Alignment -/

theorem maskLeft_two_pow (hk : k < 32) : maskLeft (2 ^ k) = 2 ^ 32 - 2 ^ k := by
  have hclz : Word.clz (2 ^ k) + 1 = 32 - k := by
    rw [Word.clz_two_pow]
    omega
  have hshift : (2 ^ 32 - 1) >>> (32 - k) = 2 ^ k - 1 := by
    rw [Nat.shiftRight_eq_div_pow]
    have hpow : 2 ^ 32 = 2 ^ k * 2 ^ (32 - k) := by
      rw [← Nat.pow_add, Nat.add_sub_cancel' (by omega)]
    have hpos := Nat.two_pow_pos (32 - k)
    have hpos' := Nat.two_pow_pos k
    rw [hpow, Nat.div_eq_iff hpos]
    have hmul : (2 ^ k - 1) * 2 ^ (32 - k) = 2 ^ k * 2 ^ (32 - k) - 2 ^ (32 - k) := by
      rw [Nat.sub_mul, Nat.one_mul]
    have hle : 2 ^ (32 - k) ≤ 2 ^ k * 2 ^ (32 - k) := Nat.le_mul_of_pos_left _ hpos'
    omega
  have hpos := Nat.two_pow_pos k
  have hlt : 2 ^ k ≤ 2 ^ 32 := Nat.pow_le_pow_right (by decide) (by omega)
  simp only [maskLeft, hclz, Word.not, Nat.sub_zero, hshift]
  omega

/-- Masking with an alignment rounds down to it. -/
theorem and_maskLeft {x : Nat} (hk : k < 32) (hx : x < 2 ^ 32) :
    x &&& maskLeft (2 ^ k) = x / 2 ^ k * 2 ^ k := by
  rw [maskLeft_two_pow hk, Word.and_high_mask hx (by omega)]
  have := Nat.div_add_mod' x (2 ^ k)
  omega

/-- Masking an address moved up by the alignment less one rounds it up. -/
theorem align_up {p : Nat} (hk : k < 32) (hp : p + 2 ^ k - 1 < 2 ^ 32) :
    wrap (p + sub (2 ^ k) 1) &&& maskLeft (2 ^ k) = (p + 2 ^ k - 1) / 2 ^ k * 2 ^ k := by
  have hpos := Nat.two_pow_pos k
  have hlt : 2 ^ k < 2 ^ 32 := Nat.pow_lt_pow_right (by decide) hk
  have hassoc : p + (2 ^ k - 1) = p + 2 ^ k - 1 := by omega
  rw [sub_of_le hpos hlt, wrap_of_lt (by omega), and_maskLeft hk (by omega), hassoc]

/-- The offset computed in `allocate` is the distance to the next aligned address. -/
theorem offset_eq {p : Nat} (hk : k < 32) (hp : p + 2 ^ k - 1 < 2 ^ 32) :
    alignmentOffset p (2 ^ k) = gap (2 ^ k) p := by
  have hspec := gap_spec (p := p) (Nat.two_pow_pos k)
  have hdiv := Nat.div_add_mod' (p + 2 ^ k - 1) (2 ^ k)
  have hmod := Nat.mod_lt (p + 2 ^ k - 1) (Nat.two_pow_pos k)
  rw [alignmentOffset, align_up hk hp, sub_of_le (by omega) (by omega), gap]

/-- From a word boundary, the next aligned address is whole words away. -/
theorem four_dvd_gap {p : Nat} (hp : 4 ∣ p) : 4 ∣ gap (2 ^ k) p := by
  by_cases hk : 2 ≤ k
  · exact dvd_gap hp (Nat.pow_dvd_pow 2 hk) (Nat.two_pow_pos k)
  · have hdvd : 2 ^ k ∣ p := Nat.dvd_trans (Nat.pow_dvd_pow 2 (by omega : k ≤ 2)) hp
    rw [(gap_eq_zero_iff (Nat.two_pow_pos k)).mpr hdvd]
    exact Nat.dvd_zero 4

/-- The size that `allocate` works with. -/
def rounded (size : Nat) : Nat := (size + 3) / 4 * 4

theorem rounded_spec (hpos : 0 < size) :
    4 ∣ rounded size ∧ 4 ≤ rounded size ∧ size ≤ rounded size ∧ rounded size ≤ size + 3 := by
  simp only [rounded]
  omega

theorem round_size (hmax : size ≤ 0xfffffffc) : wrap (size + 3) &&& 0xfffffffc = rounded size := by
  have hmask : (0xfffffffc : Nat) = 2 ^ 32 - 2 ^ 2 := by decide
  rw [wrap_of_lt (by omega), hmask, Word.and_high_mask (by omega) (by decide), rounded]
  omega

/-! ## One block -/

theorem split_small {this offset : Nat} (hle : offset ≤ (m.header this).size)
    (hlt : (m.header this).size < 2 ^ 32) (hsmall : (m.header this).size ≤ offset + 16) :
    split m this offset = (0, m) := by
  rw [split, sub_of_le hle hlt, if_pos (by simp only [sizeofBlock]; omega)]

/-- Taking the front of an unused block carves its cell. -/
theorem take_represents (h : Represents m (l₁ ++ c :: l₂))
    (hr : Region lo hi (l₁ ++ c :: l₂)) (hsize : 4 ∣ size) (hpos : 0 < size) (hle : size ≤ c.size) :
    Represents (take m c.addr size) (l₁ ++ (carve sizeofBlock size c ++ l₂)) ∧
      (take m c.addr size).initializationCompleted = m.initializationCompleted := by
  have hc : c ∈ l₁ ++ c :: l₂ := by simp
  have hfin := hr.fin_le hc
  have hcaddr := hr.addr_pos hc
  have hr' : Region lo hi (l₁ ++ (carve sizeofBlock size c ++ l₂)) :=
    hr.replace _ carve_tiles (carve_sized (hr.size_pos hc).2 hsize (by decide) hpos hle)
  unfold take
  rw [h.size c hc]
  by_cases hroom : size + sizeofBlock < c.size
  · obtain ⟨m', hsplit, hm', hready⟩ := split_represents size h hr hroom
    simp only [carve, if_pos hroom] at hr' ⊢
    rw [if_pos (by omega), hsplit]
    exact ⟨by simpa using setUsed_represents hm' (by simpa using hr'.nodup) (u := true), hready⟩
  · have hnone : (if size < c.size then (split m c.addr size).2 else m) = m := by
      split
      · simp only [sizeofBlock] at hroom
        rw [split_small] <;> rw [h.size c hc] <;> omega
      · rfl
    simp only [carve, if_neg hroom, hnone]
    exact ⟨by simpa using setUsed_represents h hr.nodup (u := true), rfl⟩

theorem Region.data_le (h : Region lo hi l) (hc : c ∈ l) :
    c.data sizeofBlock + c.size ≤ 2 ^ 32 := by
  simpa [Cell.data] using h.fin_le hc

theorem Region.data_dvd (h : Region lo hi l) (hc : c ∈ l) : 4 ∣ c.data sizeofBlock :=
  Nat.dvd_add (h.addr_dvd hc) (by decide)

/-- The return address after a round that could not serve the request. -/
def leftover (size p : Nat) (c : Cell) : Nat :=
  if c.used = false ∧ size ≤ c.size then c.data sizeofBlock else p

/-- A round of the search loop places the request in the cell, or leaves it alone. -/
theorem tryBlock_spec (p₀ : Nat) (h : Represents m (l₁ ++ c :: l₂)) (hr : Region lo hi (l₁ ++ c :: l₂))
    (hk : k < 32) (hsize : 4 ∣ size) (hpos : 0 < size) (halign : 2 ^ k ≤ size) :
    match place sizeofBlock size (2 ^ k) c with
    | some (p, cs) => ∃ m', tryBlock size (2 ^ k) m p₀ c.addr = .done p m' ∧
        Represents m' (l₁ ++ (cs ++ l₂)) ∧
        m'.initializationCompleted = m.initializationCompleted
    | none => tryBlock size (2 ^ k) m p₀ c.addr = .next (leftover size p₀ c) := by
  have hc : c ∈ l₁ ++ c :: l₂ := by simp
  have hget := getAddress_eq hr hc
  have hdata := hr.data_le hc
  have hfin := hr.fin_le hc
  have hgap := (gap_spec (p := c.data sizeofBlock) (Nat.two_pow_pos k)).2
  unfold tryBlock place leftover
  rw [h.size c hc, h.used c hc, hget]
  by_cases hfit : c.used = false ∧ size ≤ c.size
  swap
  · simp only [if_neg hfit, if_neg (fun hf => hfit (And.symm hf))]
  have hoffset : alignmentOffset (c.data sizeofBlock) (2 ^ k) = gap (2 ^ k) (c.data sizeofBlock) :=
    offset_eq hk (by omega)
  simp only [if_pos hfit, if_pos hfit.symm, hoffset]
  have hcaddr := hr.addr_pos hc
  set off := gap (2 ^ k) (c.data sizeofBlock) with hoff
  by_cases hzero : off = 0
  · simp only [if_pos hzero]
    exact ⟨_, rfl, take_represents h hr hsize hpos hfit.2⟩
  simp only [if_neg hzero]
  have hsub : sub c.size off = c.size - off := sub_of_le (by omega) (by omega)
  have hcond : sizeofBlock < off ∧ size ≤ sub c.size off ↔
      sizeofBlock < off ∧ off + size ≤ c.size := by
    rw [hsub]
    omega
  by_cases hbehind : sizeofBlock < off ∧ off + size ≤ c.size
  swap
  · simp only [if_neg hbehind, if_neg (fun hf => hbehind (hcond.mp hf))]
  simp only [if_pos hbehind, if_pos (hcond.mpr hbehind)]
  -- the front piece becomes a cell of its own, the request is carved from the rest
  simp only [sizeofBlock] at hbehind
  have hfront : sub off sizeofBlock = off - 16 :=
    sub_of_le (by simp only [sizeofBlock]; omega) (by omega)
  obtain ⟨m₁, hsplit, hm₁, hready₁⟩ := split_represents (off - 16) h hr (by omega)
  have hstart : c.addr + 16 + (off - 16) = c.addr + off := by omega
  have hrest : c.size - (off - 16) - 16 = c.size - off := by omega
  rw [hstart, hrest, hfit.1] at hm₁
  rw [hstart] at hsplit
  have hr₁ : Region lo hi (l₁ ++ ⟨c.addr, off - 16, false⟩ ::
      ⟨c.addr + off, c.size - off, false⟩ :: l₂) := by
    refine hr.replace [_, _] ?_ ?_
    · simp only [tiles_cons, tiles_nil, Cell.fin, sizeofBlock, true_and]
      omega
    · have hcsize := (hr.size_pos hc).2
      have hdvd : 4 ∣ off := four_dvd_gap (hr.data_dvd hc)
      simp only [sized_cons, sized_nil, and_true]
      refine ⟨⟨by omega, Nat.dvd_sub hdvd (by decide)⟩, by omega, Nat.dvd_sub hcsize hdvd⟩
  have hget₁ := getAddress_eq hr₁ (c := ⟨c.addr + off, c.size - off, false⟩) (by simp)
  rw [List.append_cons] at hm₁ hr₁
  obtain ⟨hm₂, hready₂⟩ := take_represents hm₁ hr₁ hsize hpos (by simp only; omega)
  have hne : c.addr + off ≠ 0 := by omega
  rw [hfront, hsplit]
  simp only [hne, if_false]
  refine ⟨_, ?_, by simpa using hm₂, hready₂.trans hready₁⟩
  simp only [hget₁, Cell.data]
  congr 1
  omega

/-! ## Whole calls -/

/-- The search loop is a first fit over the cells from `current` on. A search that
fails returns what its rounds have left in the return address. -/
theorem allocateLoop_spec (l₁ : List Cell) (fuel p₀ : Nat) (h : Represents m (l₁ ++ c :: l₂))
    (hr : Region lo hi (l₁ ++ c :: l₂)) (hk : k < 32) (hsize : 4 ∣ size) (hpos : 0 < size)
    (halign : 2 ^ k ≤ size) (hfuel : l₂.length < fuel) :
    match firstFit sizeofBlock size (2 ^ k) (c :: l₂) with
    | some (p, cs) => ∃ m', allocateLoop size (2 ^ k) m fuel p₀ c.addr = some (p, m') ∧
        Represents m' (l₁ ++ cs) ∧ m'.initializationCompleted = m.initializationCompleted
    | none => allocateLoop size (2 ^ k) m fuel p₀ c.addr =
        some ((c :: l₂).foldl (leftover size) p₀, m) := by
  induction l₂ generalizing c l₁ fuel p₀ with
  | nil =>
    obtain ⟨fuel, rfl⟩ : ∃ n, fuel = n + 1 := ⟨fuel - 1, by omega⟩
    have hround := tryBlock_spec p₀ h hr hk hsize hpos halign
    have hnext := h.next_eq
    cases hplace : place sizeofBlock size (2 ^ k) c with
    | some found =>
      obtain ⟨p, cs⟩ := found
      simp only [hplace] at hround
      obtain ⟨m', htry, hm', hready⟩ := hround
      simp only [firstFit, allocateLoop, hplace, htry]
      exact ⟨m', rfl, hm', hready⟩
    | none =>
      simp only [hplace] at hround
      simp [firstFit, allocateLoop, hplace, hround, hnext]
  | cons d l₂ ih =>
    obtain ⟨fuel, rfl⟩ : ∃ n, fuel = n + 1 := ⟨fuel - 1, by omega⟩
    have hround := tryBlock_spec p₀ h hr hk hsize hpos halign
    have hnext : (m.header c.addr).next = d.addr := h.next_eq
    have hd0 : d.addr ≠ 0 := Nat.pos_iff_ne_zero.mp (hr.addr_pos (by simp))
    cases hplace : place sizeofBlock size (2 ^ k) c with
    | some found =>
      obtain ⟨p, cs⟩ := found
      simp only [hplace] at hround
      obtain ⟨m', htry, hm', hready⟩ := hround
      rw [firstFit, allocateLoop]
      simp only [hplace, htry]
      exact ⟨m', rfl, hm', hready⟩
    | none =>
      simp only [hplace] at hround
      rw [firstFit, allocateLoop]
      simp only [hplace, hround, hnext, hd0, if_false]
      have ih' := ih (l₁ ++ [c]) fuel (leftover size p₀ c) (c := d)
        (by simpa using h) (by simpa using hr) (by simpa using hfuel)
      split at ih'
      next p cs hrest => simpa [hrest] using ih'
      next hrest => simpa [hrest] using ih'

/-- The size of the block list fits the bound on the walk. -/
theorem Region.length_lt (hr : Region lo hi l) : l.length < maxBlocks := by
  have hlen := hr.tiles.length_le (k := 17) (fun c hc => by
    have := (hr.size_pos hc).1
    simp only [sizeofBlock]
    omega)
  have := hr.bounded
  have := hr.positive
  simp only [maxBlocks]
  omega

/-- What a placement does to the list: one unused cell gives way to its pieces. -/
structure Serves (size align : Nat) (l : List Cell) (p : Nat) (cs : List Cell) : Prop where
  used : ∃ d l₁ l₂, usedCells l = l₁ ++ l₂ ∧ usedCells cs = l₁ ++ d :: l₂ ∧
    d.data sizeofBlock = p ∧ size ≤ d.size
  aligned : align ∣ p

theorem firstFit_serves {cs : List Cell} {p : Nat} (hr : Region lo hi l)
    (hf : firstFit sizeofBlock size (2 ^ k) l = some (p, cs)) (hsize : 4 ∣ size) (hpos : 0 < size) :
    Serves size (2 ^ k) l p cs ∧ Region lo hi cs ∧ cs ≠ [] := by
  obtain ⟨l₁, c, ds, l₂, rfl, rfl, hplace⟩ := firstFit_split hf
  have hc : c ∈ l₁ ++ c :: l₂ := by simp
  have placed := place_spec hplace (Nat.two_pow_pos k) (hr.size_pos hc).2
    (four_dvd_gap (hr.data_dvd hc)) hsize (by decide) hpos
  obtain ⟨d, hd, hdata, hroom⟩ := placed.used
  refine ⟨⟨⟨d, usedCells l₁, usedCells l₂, ?_, ?_, hdata, hroom⟩, placed.aligned⟩,
    hr.replace _ placed.tiles placed.sized, ?_⟩
  · rw [usedCells_append, usedCells_cons_unused placed.unused]
  · simp [hd]
  · rintro he
    obtain ⟨-, rfl, -⟩ : l₁ = [] ∧ ds = [] ∧ l₂ = [] := by simpa using he
    simp at hd

/-- A call of `allocate` places the rounded request, or changes nothing. -/
theorem allocate_spec (h : Heap lo hi m l) (hpos : 0 < size) (hmax : size ≤ 0xfffffffc)
    (halign : 2 ^ k ≤ max 4 (rounded size)) :
    match firstFit sizeofBlock (rounded size) (2 ^ k) l with
    | some (p, cs) => ∃ m', allocate m size (2 ^ k) = some (p, m') ∧ Heap lo hi m' cs
    | none => allocate m size (2 ^ k) =
        some (l.foldl (leftover (rounded size)) 0, m) := by
  obtain ⟨hdvd, hfour, -, hle⟩ := rounded_spec hpos
  have halign' : 2 ^ k ≤ rounded size := by omega
  have hk : k < 32 := by
    refine (Nat.pow_lt_pow_iff_right (by decide : 1 < 2)).mp ?_
    omega
  have hround : 0 < rounded size := by omega
  have hlen := h.toRegion.length_lt
  obtain ⟨c, l', rfl⟩ := List.exists_cons_of_ne_nil h.nonempty
  have hfirst : m.firstBlock = c.addr := h.first
  have hloop := allocateLoop_spec [] maxBlocks 0 h.toRepresents
    h.toRegion hk hdvd hround halign' (by simp only [List.length_cons] at hlen; omega)
  unfold allocate
  rw [if_neg (by omega), h.ready, round_size hmax, hfirst]
  simp only [Bool.not_true, Bool.false_eq_true, if_false]
  split at hloop
  next p cs hfit =>
    obtain ⟨m', hcall, hm', hready⟩ := hloop
    obtain ⟨-, hr', hne⟩ := firstFit_serves h.toRegion hfit hdvd hround
    exact ⟨m', hcall, hm', hr', hready.trans h.ready, hne⟩
  next => exact hloop

/-- Swallowing the next block, as the end of `free` does it. -/
theorem absorb_represents (h : Represents m (l₁ ++ c :: l₂)) (hr : Region lo hi (l₁ ++ c :: l₂)) :
    ∃ m', (if (m.header c.addr).next ≠ 0 ∧ (m.header (m.header c.addr).next).used = false then
        (merge m c.addr (m.header c.addr).next).2 else m) = m' ∧
      Represents m' (l₁ ++ absorb sizeofBlock c l₂) ∧
      m'.initializationCompleted = m.initializationCompleted := by
  cases l₂ with
  | nil =>
    have hnext : (m.header c.addr).next = 0 := by simpa using h.next_eq
    refine ⟨m, by simp [hnext], h, rfl⟩
  | cons d l₂ =>
    have hnext : (m.header c.addr).next = d.addr := by simpa using h.next_eq
    have hd : d ∈ l₁ ++ c :: d :: l₂ := by simp
    have hd0 : d.addr ≠ 0 := Nat.pos_iff_ne_zero.mp (hr.addr_pos hd)
    rw [hnext, h.used d hd]
    cases hu : d.used with
    | true => exact ⟨m, by simp, by simpa [absorb, hu] using h, rfl⟩
    | false =>
      obtain ⟨m', hmerge, hm', hready⟩ := merge_represents h hr
      exact ⟨m', by simp [hd0, hmerge], by simpa [absorb, hu] using hm', hready⟩

theorem Region.absorb (h : Region lo hi (l₁ ++ c :: l₂)) :
    Region lo hi (l₁ ++ absorb sizeofBlock c l₂) := by
  obtain ⟨mid, h₁, h₂⟩ := tiles_append.mp h.tiles
  have hs := sized_append.mp h.sized
  exact ⟨tiles_append.mpr ⟨mid, h₁, absorb_tiles h₂⟩,
    sized_append.mpr ⟨hs.1, absorb_sized hs.2 (by decide)⟩, h.positive, h.aligned, h.bounded⟩

/-- Joining a block with an unused one in front of it, as the middle of `free` does it. -/
theorem join_represents (h : Represents m (l₁ ++ c :: l₂)) (hr : Region lo hi (l₁ ++ c :: l₂))
    (hc : c.used = false) :
    ∃ r d m', (if (m.header c.addr).prev ≠ 0 ∧
          (m.header (m.header c.addr).prev).used = false then
        merge m (m.header c.addr).prev c.addr else (c.addr, m)) = (d.addr, m') ∧
      Represents m' (r ++ d :: l₂) ∧ Region lo hi (r ++ d :: l₂) ∧
      r ++ absorb sizeofBlock d l₂ = release sizeofBlock l₁ c l₂ ∧
      m'.initializationCompleted = m.initializationCompleted := by
  have hself : (⟨c.addr, c.size, false⟩ : Cell) = c := by rw [← hc]
  have hprev := h.prev_eq
  induction l₁ using release_cases with
  | nil =>
    refine ⟨[], c, m, ?_, h, hr, by rw [release_nil, hself]; rfl, rfl⟩
    rw [hprev]
    simp [Links.lastOr]
  | used l b hb =>
    have hmem : b ∈ l ++ [b] ++ c :: l₂ := by simp
    refine ⟨l ++ [b], c, m, ?_, h, hr, by simp [release_concat_used hb, hself], rfl⟩
    have hprev' : (m.header c.addr).prev = b.addr := by simpa using hprev
    rw [hprev', h.used b hmem, hb]
    simp
  | unused l b hb =>
    have hmem : b ∈ l ++ [b] ++ c :: l₂ := by simp
    have hb0 : b.addr ≠ 0 := Nat.pos_iff_ne_zero.mp (hr.addr_pos hmem)
    have hprev' : (m.header c.addr).prev = b.addr := by simpa using hprev
    have hassoc : l ++ [b] ++ c :: l₂ = l ++ b :: c :: l₂ := by simp
    have hr' := hassoc ▸ hr
    obtain ⟨m', hmerge, hm', hready⟩ := merge_represents (hassoc ▸ h) hr'
    refine ⟨l, _, m', ?_, hm', ?_, ?_, hready⟩
    · rw [hprev', h.used b hmem, hb, hmerge]
      simp [hb0]
    · simpa [absorb, hc] using hr'.absorb
    · rw [release_concat_unused hb, hb]

/-- A call of `free` on the data of a block releases its cell. -/
theorem free_spec (h : Heap lo hi m (l₁ ++ c :: l₂)) :
    ∃ m', free m (c.data sizeofBlock) = some m' ∧
      Heap lo hi m' (release sizeofBlock l₁ c l₂) := by
  have hr := h.toRegion
  have hc : c ∈ l₁ ++ c :: l₂ := by simp
  have hfin := hr.fin_le hc
  have hcsize := (hr.size_pos hc).1
  have hcur : sub (c.data sizeofBlock) sizeofBlock = c.addr := by
    rw [Cell.data, sub_of_le (by omega) (by simp only [sizeofBlock]; omega)]
    omega
  have hdata : c.data sizeofBlock ≠ 0 := by simp [Cell.data]
  have hm₁ := setUsed_represents h.toRepresents hr.nodup (u := false)
  have hr₁ : Region lo hi (l₁ ++ { c with used := false } :: l₂) :=
    hr.replace [{ c with used := false }] ⟨rfl, rfl⟩ (by simpa using hr.size_pos hc)
  have hr' : Region lo hi (release sizeofBlock l₁ c l₂) :=
    ⟨release_tiles hr.tiles, release_sized hr.sized (by decide), hr.positive, hr.aligned,
      hr.bounded⟩
  have hne' : release sizeofBlock l₁ c l₂ ≠ [] := by
    rintro he
    have := he ▸ hr'.tiles
    have := hr.tiles.bounds hc
    simp only [tiles_nil, Cell.fin] at *
    omega
  obtain ⟨r, d, m₂, hjoin, hm₂, hr₂, hrel, hready₂⟩ := join_represents hm₁ hr₁ rfl
  obtain ⟨m₃, habsorb, hm₃, hready₃⟩ := absorb_represents hm₂ hr₂
  have hd0 : d.addr ≠ 0 := Nat.pos_iff_ne_zero.mp (hr₂.addr_pos (by simp))
  refine ⟨m₃, ?_, ⟨?_, hr', ?_, hne'⟩⟩
  · unfold free
    simp only [if_neg hdata, hcur]
    simp only at hjoin
    rw [hjoin]
    simp only [if_neg hd0]
    rw [← habsorb, apply_ite some]
  · rw [hrel] at hm₃
    exact hm₃
  · exact (hready₃.trans hready₂).trans h.ready

end WagtailHeap
