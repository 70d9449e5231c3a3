import Wagtail.HeapRuns

/-!
# Which block serves a request

The test of the search, for any request: how the distance to the next aligned address and
the difference of the sizes come out when they leave the 32 bits. From it, which requests
find no block although an unused one has room, and for which ones every step of the
arithmetic is exact.
-/
namespace WagtailHeap

open Word (wrap sub wrap_of_lt sub_of_le)
open FirstFit

variable {m : Mm} {lo hi size align k fuel : Nat} {c d : Cell} {l l₁ l₂ : List Cell}

/-! ## The test of the search -/

/-- The offset computed in `allocate` is the distance to the next aligned address, which may be
the end of the address space. -/
theorem offset_eq_gap {p : Nat} (hk : k < 32) (hp : p < 2 ^ 32) :
    alignmentOffset p (2 ^ k) = gap (2 ^ k) p := by
  have hpos := Nat.two_pow_pos k
  have hlt : 2 ^ k < 2 ^ 32 := Nat.pow_lt_pow_right (by decide) hk
  by_cases hend : p + 2 ^ k - 1 < 2 ^ 32
  · exact offset_eq hk hend
  · have hspec := gap_spec (p := p) hpos
    have hdvd : 2 ^ k ∣ 2 ^ 32 := Nat.pow_dvd_pow 2 (by omega)
    have hle := gap_le hdvd (Nat.le_of_lt hp) hpos
    have hzero := Nat.eq_zero_of_dvd_of_lt (Nat.dvd_sub hdvd hspec.1) (by omega)
    have hwrap : wrap (p + sub (2 ^ k) 1) = p + 2 ^ k - 1 - 2 ^ 32 := by
      rw [sub_of_le hpos hlt, wrap]
      omega
    have hdown : (p + 2 ^ k - 1 - 2 ^ 32) / 2 ^ k * 2 ^ k = 0 := by
      rw [Nat.div_eq_of_lt (by omega), Nat.zero_mul]
    rw [alignmentOffset, hwrap, and_maskLeft hk (by omega), hdown, sub]
    omega

theorem round_wrap (size : Nat) : wrap (size + 3) &&& 0xfffffffc = wrap (rounded size) := by
  have hmask : (0xfffffffc : Nat) = 2 ^ 32 - 2 ^ 2 := by decide
  have hlt : wrap (size + 3) < 2 ^ 32 := Nat.mod_lt _ (by decide)
  rw [hmask, Word.and_high_mask hlt (by decide), rounded]
  simp only [wrap]
  omega

/-- The test of a search round on a cell. A difference of sizes that falls below zero passes it. -/
theorem fits_iff (h : Heap lo hi m l) (hc : c ∈ l) (hk : k < 32) :
    Fits m size (2 ^ k) c.addr ↔ (c.used = false ∧ size ≤ c.size) ∧
      (gap (2 ^ k) (c.data sizeofBlock) = 0 ∨ sizeofBlock < gap (2 ^ k) (c.data sizeofBlock) ∧
        (c.size < gap (2 ^ k) (c.data sizeofBlock) ∨
          gap (2 ^ k) (c.data sizeofBlock) + size ≤ c.size)) := by
  have hr := h.toRegion
  have hfin := hr.fin_le hc
  have hcsize := (hr.size_pos hc).1
  have hdata : c.data sizeofBlock < 2 ^ 32 := by
    simp only [Cell.data, sizeofBlock]
    omega
  have hgap := (gap_spec (p := c.data sizeofBlock) (Nat.two_pow_pos k)).2
  have hpow : 2 ^ k ≤ 2 ^ 31 := Nat.pow_le_pow_right (by decide) (by omega)
  rw [Fits, h.size c hc, h.used c hc, getAddress_eq hr hc, offset_eq_gap hk hdata]
  set off := gap (2 ^ k) (c.data sizeofBlock)
  have hsub : size ≤ c.size → (size ≤ sub c.size off ↔ c.size < off ∨ off + size ≤ c.size) := by
    intro hle
    simp only [sub]
    omega
  constructor
  · rintro ⟨hle, hu, hoff⟩
    exact ⟨⟨hu, hle⟩, hoff.imp_right fun hoff => ⟨hoff.1, (hsub hle).mp hoff.2⟩⟩
  · rintro ⟨⟨hu, hle⟩, hoff⟩
    exact ⟨hle, hu, hoff.imp_right fun hoff => ⟨hoff.1, (hsub hle).mpr hoff.2⟩⟩

/-- The first block that passes the test. -/
def firstFitting (m : Mm) (size align : Nat) : Option Nat :=
  (blocks m).find? fun b => decide (Fits m size align b)

theorem tryBlock_next {b p₀ : Nat} (h : ¬Fits m size align b) :
    tryBlock size align m p₀ b = .next
      (if (m.header b).used = false ∧ size ≤ (m.header b).size then getAddress b else p₀) := by
  rw [Fits] at h
  rw [tryBlock]
  by_cases hfit : size ≤ (m.header b).size ∧ (m.header b).used = false
  · have hoff := fun ho => h ⟨hfit.1, hfit.2, ho⟩
    rw [if_pos hfit, if_pos hfit.symm, if_neg (fun h0 => hoff (.inl h0)),
      if_neg (fun hbehind => hoff (.inr hbehind))]
  · rw [if_neg hfit, if_neg (fun hf => hfit hf.symm)]

theorem tryBlock_fits {b : Nat} (h : Fits m size align b) (p₀ : Nat) :
    tryBlock size align m p₀ b = tryBlock size align m 0 b ∧
      ∀ p, tryBlock size align m 0 b ≠ .next p := by
  obtain ⟨hle, hu, hoff⟩ := h
  have hfit : size ≤ (m.header b).size ∧ (m.header b).used = false := ⟨hle, hu⟩
  rw [tryBlock, tryBlock, if_pos hfit, if_pos hfit]
  refine ⟨rfl, fun p => ?_⟩
  by_cases hzero : alignmentOffset (getAddress b) align = 0
  · simp [hzero]
  · simp only [if_neg hzero, if_pos (hoff.resolve_left hzero)]
    split <;> simp

/-- What the call returns for the block at which its search stops. -/
def served (m : Mm) (size align b : Nat) : Option (Nat × Mm) :=
  match tryBlock size align m 0 b with
  | .done p m' => some (p, m')
  | _ => none

theorem allocateLoop_step (p₀ : Nat) (h : Represents m (l₁ ++ c :: l₂))
    (hr : Region lo hi (l₁ ++ c :: l₂)) :
    allocateLoop size align m (fuel + 1) p₀ c.addr =
      if Fits m size align c.addr then served m size align c.addr
      else if (m.header c.addr).next = 0 then some (leftover size p₀ c, m)
      else allocateLoop size align m fuel (leftover size p₀ c) (m.header c.addr).next := by
  have hc : c ∈ l₁ ++ c :: l₂ := by simp
  rw [allocateLoop]
  by_cases hfits : Fits m size align c.addr
  · obtain ⟨hround, hdone⟩ := tryBlock_fits hfits p₀
    rw [if_pos hfits, hround, served]
    cases hstop : tryBlock size align m 0 c.addr with
    | done p m' => rfl
    | next p => exact absurd hstop (hdone p)
    | nullBlock => rfl
  · rw [if_neg hfits, tryBlock_next hfits, h.size c hc, h.used c hc, getAddress_eq hr hc]
    rfl

/-- The search passes over the blocks that fail the test, and leaves them alone. -/
theorem allocateLoop_first (l₁ : List Cell) (fuel p₀ : Nat) (h : Represents m (l₁ ++ c :: l₂))
    (hr : Region lo hi (l₁ ++ c :: l₂)) (hfuel : l₂.length < fuel) :
    allocateLoop size align m fuel p₀ c.addr =
      match ((c :: l₂).map Cell.addr).find? fun b => decide (Fits m size align b) with
      | some b => served m size align b
      | none => some ((c :: l₂).foldl (leftover size) p₀, m) := by
  induction l₂ generalizing c l₁ fuel p₀ with
  | nil =>
    obtain ⟨fuel, rfl⟩ : ∃ n, fuel = n + 1 := ⟨fuel - 1, by omega⟩
    have hnext : (m.header c.addr).next = 0 := h.next_eq
    rw [allocateLoop_step p₀ h hr, if_pos hnext]
    by_cases hfits : Fits m size align c.addr <;> simp [hfits]
  | cons d l₂ ih =>
    obtain ⟨fuel, rfl⟩ : ∃ n, fuel = n + 1 := ⟨fuel - 1, by omega⟩
    have hnext : (m.header c.addr).next = d.addr := h.next_eq
    have hd0 : d.addr ≠ 0 := Nat.pos_iff_ne_zero.mp (hr.addr_pos (by simp))
    rw [allocateLoop_step p₀ h hr, hnext, if_neg hd0, List.map_cons, List.find?_cons]
    by_cases hfits : Fits m size align c.addr
    · simp [hfits]
    · rw [if_neg hfits, decide_eq_false hfits, List.foldl_cons]
      exact ih (l₁ ++ [c]) fuel (leftover size p₀ c) (by simpa using h) (by simpa using hr)
        (by simpa using hfuel)

/-- A call for at least a byte, in terms of its search. -/
theorem allocate_first (h : Heap lo hi m l) (hpos : 0 < size) :
    allocate m size align =
      match firstFitting m (wrap (rounded size)) align with
      | some b => served m (wrap (rounded size)) align b
      | none => some (l.foldl (leftover (wrap (rounded size))) 0, m) := by
  have hlen := h.toRegion.length_lt
  have hblocks := blocks_eq h
  obtain ⟨c, l', rfl⟩ := List.exists_cons_of_ne_nil h.nonempty
  have hfirst : m.firstBlock = c.addr := h.first
  unfold allocate
  rw [if_neg (by omega), h.ready, round_wrap, hfirst, firstFitting, hblocks]
  simp only [Bool.not_true, Bool.false_eq_true, if_false]
  exact allocateLoop_first [] maxBlocks 0 h.toRepresents h.toRegion
    (by simp only [List.length_cons] at hlen; omega)

/-! ## Where the search stops -/

theorem split_fst (m : Mm) (this offset : Nat) : (split m this offset).1 =
    if sub (m.header this).size offset ≤ sizeofBlock then 0
    else wrap (getAddress this + offset) := by
  rw [split]
  split <;> rfl

theorem data_lt (h : Heap lo hi m l) (hc : c ∈ l) : c.data sizeofBlock < 2 ^ 32 := by
  have hfin := h.toRegion.fin_le hc
  have hcsize := (h.toRegion.size_pos hc).1
  simp only [Cell.data, sizeofBlock]
  omega

theorem gap_lt {p : Nat} (hk : k < 32) : gap (2 ^ k) p < 2 ^ 31 :=
  Nat.lt_of_lt_of_le (gap_spec (Nat.two_pow_pos k)).2 (Nat.pow_le_pow_right (by decide) (by omega))

theorem data_gap_le (h : Heap lo hi m l) (hc : c ∈ l) (hk : k < 32) :
    c.data sizeofBlock + gap (2 ^ k) (c.data sizeofBlock) ≤ 2 ^ 32 :=
  gap_le (Nat.pow_dvd_pow 2 (by omega)) (Nat.le_of_lt (data_lt h hc)) (Nat.two_pow_pos k)

/-- What the call returns at the block where the search stops. It goes wrong where the split in
front of the aligned address is refused. -/
theorem served_spec (h : Heap lo hi m l) (hc : c ∈ l) (hk : k < 32)
    (hfits : Fits m size (2 ^ k) c.addr) :
    (gap (2 ^ k) (c.data sizeofBlock) = 0 ∨
        sizeofBlock < sub c.size (gap (2 ^ k) (c.data sizeofBlock) - sizeofBlock)) ∧
        (∃ m', served m size (2 ^ k) c.addr =
          some (wrap (c.data sizeofBlock + gap (2 ^ k) (c.data sizeofBlock)), m')) ∨
      (sizeofBlock < gap (2 ^ k) (c.data sizeofBlock) ∧
        sub c.size (gap (2 ^ k) (c.data sizeofBlock) - sizeofBlock) ≤ sizeofBlock) ∧
        served m size (2 ^ k) c.addr = none := by
  have hr := h.toRegion
  have hdata := data_lt h hc
  have hgap := gap_lt (p := c.data sizeofBlock) hk
  have hle := data_gap_le h hc hk
  obtain ⟨hfit, hu, hoff⟩ := hfits
  rw [getAddress_eq hr hc, offset_eq_gap hk hdata] at hoff
  simp only [served, tryBlock, if_pos (And.intro hfit hu), getAddress_eq hr hc,
    offset_eq_gap hk hdata]
  set off := gap (2 ^ k) (c.data sizeofBlock)
  by_cases hzero : off = 0
  · refine .inl ⟨.inl hzero, take m c.addr size, ?_⟩
    rw [hzero, Nat.add_zero, wrap_of_lt hdata]
    simp
  · have hbehind := hoff.resolve_left hzero
    have hfront : sub off sizeofBlock = off - sizeofBlock :=
      sub_of_le (Nat.le_of_lt hbehind.1) (by omega)
    have hfst := split_fst m c.addr (off - sizeofBlock)
    rw [getAddress_eq hr hc, h.size c hc] at hfst
    simp only [if_neg hzero, if_pos hbehind, hfront]
    generalize split m c.addr (off - sizeofBlock) = r at hfst
    obtain ⟨b, m₁⟩ := r
    simp only at hfst ⊢
    by_cases hsmall : sub c.size (off - sizeofBlock) ≤ sizeofBlock
    · rw [if_pos hsmall] at hfst
      exact .inr ⟨⟨hbehind.1, hsmall⟩, by rw [if_pos hfst]⟩
    · rw [if_neg hsmall] at hfst
      have hb := hbehind.1
      have hheader : sizeofBlock = 16 := rfl
      have hmiddle : b = c.data sizeofBlock + (off - sizeofBlock) := by
        rw [hfst, wrap_of_lt (by omega)]
      refine .inl ⟨.inr (by omega), take m₁ b size, ?_⟩
      have haddress : getAddress b = wrap (c.data sizeofBlock + off) := by
        rw [getAddress, hmiddle]
        congr 1
        omega
      rw [if_neg (by omega), haddress]

/-! ## Requests that find no block -/

/-- The block is unused and has an aligned place for the request, at its data or behind more than
a header of room. -/
def Serviceable (m : Mm) (size align block : Nat) : Prop :=
  (m.header block).used = false ∧ ∃ p, align ∣ p ∧
    (p = block + sizeofBlock ∨ block + sizeofBlock + sizeofBlock < p) ∧
    p + size ≤ block + sizeofBlock + (m.header block).size

/-- The first aligned address of the block leaves too little room in front of it for a header,
and a later one has room for the request. The search tries the first one only. -/
def Skipped (m : Mm) (size align block : Nat) : Prop :=
  (m.header block).used = false ∧
    (0 < gap align (block + sizeofBlock) ∧ gap align (block + sizeofBlock) ≤ sizeofBlock) ∧
    block + 33 + gap align (block + 33) + size ≤ block + sizeofBlock + (m.header block).size

/-- The search stops at a block whose first aligned address is the end of the address space, and
that ends more than a header before it. -/
def EndsAtNull (m : Mm) (size align : Nat) : Prop :=
  ∃ b, firstFitting m size align = some b ∧
    b + sizeofBlock + gap align (b + sizeofBlock) = 2 ^ 32 ∧
    (m.header b).size + sizeofBlock < gap align (b + sizeofBlock)

theorem serviceable_iff {b : Nat} (halign : 0 < align) : Serviceable m size align b ↔
    (m.header b).used = false ∧
      ((gap align (b + sizeofBlock) = 0 ∧ size ≤ (m.header b).size) ∨
        b + 33 + gap align (b + 33) + size ≤ b + sizeofBlock + (m.header b).size) := by
  refine and_congr_right fun hu => ⟨?_, ?_⟩
  · rintro ⟨p, hdvd, rfl | hp, hroom⟩
    · exact .inl ⟨(gap_eq_zero_iff halign).mpr hdvd, by omega⟩
    · have hle := gap_le (p := b + 33) hdvd (by simp only [sizeofBlock] at hp; omega) halign
      exact .inr (by omega)
  · rintro (⟨hzero, hroom⟩ | hroom)
    · exact ⟨_, (gap_eq_zero_iff halign).mp hzero, .inl rfl, by omega⟩
    · refine ⟨_, (gap_spec halign).1, .inr ?_, hroom⟩
      simp only [sizeofBlock]
      omega

theorem Skipped.serviceable {b : Nat} (halign : 0 < align) (h : Skipped m size align b) :
    Serviceable m size align b :=
  (serviceable_iff halign).mpr ⟨h.1, .inr h.2.2⟩

/-- A block with a place for the request fails the test only if it is skipped. -/
theorem skipped_of_serviceable (h : Heap lo hi m l) (hc : c ∈ l) (hk : k < 32)
    (hs : Serviceable m size (2 ^ k) c.addr) (hfits : ¬Fits m size (2 ^ k) c.addr) :
    Skipped m size (2 ^ k) c.addr := by
  have hpos := Nat.two_pow_pos k
  rw [fits_iff h hc hk, Cell.data] at hfits
  obtain ⟨hu, p, hdvd, hp, hroom⟩ := id hs
  rw [h.used c hc] at hu
  rw [h.size c hc] at hroom
  have hle := gap_le hdvd (show c.addr + sizeofBlock ≤ p by omega) hpos
  have hgap : 0 < gap (2 ^ k) (c.addr + sizeofBlock) ∧
      gap (2 ^ k) (c.addr + sizeofBlock) ≤ sizeofBlock := by
    have hsize : size ≤ c.size := by omega
    by_contra hnot
    refine hfits ⟨⟨hu, hsize⟩, ?_⟩
    by_cases hzero : gap (2 ^ k) (c.addr + sizeofBlock) = 0
    · exact .inl hzero
    · exact .inr ⟨by omega, .inr (by omega)⟩
  refine ⟨hs.1, hgap, ?_⟩
  exact ((serviceable_iff hpos).mp hs).2.resolve_left fun hzero => by omega

theorem mem_blocks (h : Heap lo hi m l) {b : Nat} : b ∈ blocks m ↔ ∃ c ∈ l, c.addr = b := by
  rw [blocks_eq h, List.mem_map]

theorem addr_mem_blocks (h : Heap lo hi m l) (hc : c ∈ l) : c.addr ∈ blocks m :=
  (mem_blocks h).mpr ⟨c, hc, rfl⟩

theorem all_small_iff (h : Heap lo hi m l) :
    (∀ b ∈ blocks m, (m.header b).used = true ∨ (m.header b).size < size) ↔
      ∀ c ∈ l, c.used = true ∨ c.size < size := by
  rw [h.forall_blocks]
  refine forall₂_congr fun c hc => ?_
  rw [h.used c hc, h.size c hc]

theorem not_all_small (hc : c ∈ l) (hu : c.used = false) (hle : size ≤ c.size) :
    ¬∀ d ∈ l, d.used = true ∨ d.size < size := by
  intro hall
  rcases hall c hc with hused | hsmall
  · exact absurd (hu.symm.trans hused) Bool.false_ne_true
  · omega

theorem wrap_rounded (hmax : size ≤ 0xfffffffc) : wrap (rounded size) = rounded size := by
  rw [wrap, rounded]
  omega

/-- The block at which the search stops is a cell, and it passes the test. -/
theorem firstFitting_some (h : Heap lo hi m l) {b : Nat}
    (hb : firstFitting m size align = some b) :
    ∃ c ∈ l, c.addr = b ∧ Fits m size align c.addr := by
  obtain ⟨c, hc, rfl⟩ := (mem_blocks h).mp (List.mem_of_find?_eq_some hb)
  rw [firstFitting] at hb
  exact ⟨c, hc, rfl, by simpa using List.find?_some hb⟩

theorem firstFitting_none (hnone : firstFitting m size align = none) :
    ∀ b ∈ blocks m, ¬Fits m size align b := by
  intro b hb hfits
  exact absurd (decide_eq_true hfits) (List.find?_eq_none.mp hnone b hb)

/-- When a call for at least a byte returns null. -/
theorem allocate_null_iff (h : Heap lo hi m l) (hpos : 0 < size) (hmax : size ≤ 0xfffffffc)
    (hk : k < 32) :
    (∃ m', allocate m size (2 ^ k) = some (0, m')) ↔
      (∀ c ∈ l, c.used = true ∨ c.size < rounded size) ∨ EndsAtNull m (rounded size) (2 ^ k) := by
  have hround := (rounded_spec hpos).2.1
  rw [allocate_first h hpos, wrap_rounded hmax]
  cases hfirst : firstFitting m (rounded size) (2 ^ k) with
  | none =>
    have hno : ¬EndsAtNull m (rounded size) (2 ^ k) := by
      rintro ⟨b, hb, -⟩
      rw [hfirst] at hb
      cases hb
    obtain ⟨hall, hl⟩ | ⟨c, hc, hu, hl⟩ := leftover_cases (rounded size) l 0
    · exact iff_of_true ⟨m, by rw [hl]⟩ (.inl hall)
    · refine iff_of_false ?_ ?_
      · rintro ⟨m', hm'⟩
        simp only [hl, Option.some.injEq, Prod.mk.injEq, Cell.data, sizeofBlock] at hm'
        omega
      · rintro (hall | hends)
        · exact not_all_small hc hu.1 hu.2 hall
        · exact hno hends
  | some b =>
    obtain ⟨c, hc, rfl, hfits⟩ := firstFitting_some h hfirst
    have hcell := (fits_iff h hc hk).mp hfits
    have hdata := data_lt h hc
    have hfin := h.toRegion.data_le hc
    have hle := data_gap_le h hc hk
    have hgap := gap_lt (p := c.data sizeofBlock) hk
    have hdef : c.addr + sizeofBlock = c.data sizeofBlock := rfl
    have hheader : sizeofBlock = 16 := rfl
    have hends : EndsAtNull m (rounded size) (2 ^ k) ↔
        c.data sizeofBlock + gap (2 ^ k) (c.data sizeofBlock) = 2 ^ 32 ∧
          c.size + sizeofBlock < gap (2 ^ k) (c.data sizeofBlock) := by
      simp only [EndsAtNull, hfirst, Option.some.injEq, exists_eq_left', h.size c hc, hdef]
    rw [or_iff_right (not_all_small hc hcell.1.1 hcell.1.2), hends]
    obtain ⟨hsplit, m', hm'⟩ | ⟨⟨hbehind, hsplit⟩, hm'⟩ := served_spec h hc hk hfits
    · simp only [hm', Option.some.injEq, Prod.mk.injEq, exists_and_left, exists_eq', and_true]
      constructor
      · intro hnull
        have hend : c.data sizeofBlock + gap (2 ^ k) (c.data sizeofBlock) = 2 ^ 32 := by
          simp only [wrap, Cell.data] at hnull hle ⊢
          omega
        refine ⟨hend, ?_⟩
        simp only [sub] at hsplit
        omega
      · rintro ⟨hend, -⟩
        rw [hend]
        rfl
    · simp only [hm', reduceCtorEq, exists_false, false_iff, not_and]
      intro hend
      simp only [sub] at hsplit
      omega

theorem not_serviceable_of_large (h : Heap lo hi m l) (hc : c ∈ l) (hlarge : 2 ^ 32 ≤ size) :
    ¬Serviceable m size align c.addr := by
  rintro ⟨-, p, -, hp, hroom⟩
  have hfin := h.toRegion.fin_le hc
  have haddr := h.toRegion.addr_pos hc
  rw [h.size c hc] at hroom
  simp only [sizeofBlock] at hp hroom
  omega

/-- Blocks that pass the test do not come before the one at which the search stops. -/
theorem firstFitting_le (h : Heap lo hi m l) {b₀ b : Nat}
    (hfirst : firstFitting m size align = some b₀) (hb : b ∈ blocks m)
    (hfits : Fits m size align b) : b₀ ≤ b := by
  obtain ⟨-, as, bs, hsplit, has⟩ := List.find?_eq_some_iff_append.mp hfirst
  have hsorted : (blocks m).Pairwise (· ≤ ·) := by
    rw [blocks_eq h, List.pairwise_map]
    refine h.toRegion.tiles.sorted.imp fun hcd => ?_
    simp only [Cell.fin] at hcd
    omega
  rw [hsplit] at hb hsorted
  rcases List.mem_append.mp hb with hb | hb
  · have hnot := has b hb
    simp [hfits] at hnot
  · rcases List.mem_cons.mp hb with rfl | hb
    · exact Nat.le_refl _
    · exact (List.pairwise_cons.mp (List.pairwise_append.mp hsorted).2.1).1 b hb

/-- Below the end of the address space, a block after the one at which the search stops there has
no aligned address. -/
theorem EndsAtNull.skipped (h : Heap lo hi m l) (hc : c ∈ l) (hk : k < 32) (hpos : 0 < size)
    (hends : EndsAtNull m size (2 ^ k)) (hs : Serviceable m size (2 ^ k) c.addr) :
    Skipped m size (2 ^ k) c.addr := by
  obtain ⟨b, hfirst, hend, -⟩ := hends
  refine skipped_of_serviceable h hc hk hs fun hfits => ?_
  have hle := firstFitting_le h hfirst (addr_mem_blocks h hc) hfits
  obtain ⟨-, p, hdvd, hp, hroom⟩ := hs
  have hfin := h.toRegion.fin_le hc
  rw [h.size c hc] at hroom
  have hgap := gap_le hdvd (show b + sizeofBlock ≤ p by omega) (Nat.two_pow_pos k)
  have hheader : sizeofBlock = 16 := rfl
  omega

/-- Exactly when null means that no unused block has a place for the request, and exactly when
that is so of a search that finds no block. -/
theorem allocate_complete_iff (h : Heap lo hi m l) (hpos : 1 ≤ size) (hsize : size < 2 ^ 32)
    (hk : k < 32) :
    ((∀ m', allocate m size (2 ^ k) = some (0, m') →
        ∀ b ∈ blocks m, ¬Serviceable m (rounded size) (2 ^ k) b) ↔
      ¬(EndsAtNull m (rounded size) (2 ^ k) ∧
        ∃ b ∈ blocks m, Skipped m (rounded size) (2 ^ k) b)) ∧
    (((∀ b ∈ blocks m, ¬Fits m (rounded size) (2 ^ k) b) →
        ∀ b ∈ blocks m, ¬Serviceable m (rounded size) (2 ^ k) b) ↔
      ¬((∀ b ∈ blocks m, ¬Fits m (rounded size) (2 ^ k) b) ∧
        ∃ b ∈ blocks m, Skipped m (rounded size) (2 ^ k) b)) := by
  have halign := Nat.two_pow_pos k
  have hround := rounded_spec hpos
  have hmax : ∀ b ∈ blocks m, Serviceable m (rounded size) (2 ^ k) b → size ≤ 0xfffffffc := by
    intro b hb hs
    obtain ⟨c, hc, rfl⟩ := (mem_blocks h).mp hb
    by_contra hlarge
    refine not_serviceable_of_large h hc ?_ hs
    omega
  constructor
  · constructor
    · rintro himp ⟨hends, b, hb, hskip⟩
      have hs := hskip.serviceable halign
      obtain ⟨m', hm'⟩ := (allocate_null_iff h hpos (hmax b hb hs) hk).mpr (.inr hends)
      exact himp m' hm' b hb hs
    · intro hnot m' hm' b hb hs
      obtain ⟨c, hc, rfl⟩ := (mem_blocks h).mp hb
      rcases (allocate_null_iff h hpos (hmax _ hb hs) hk).mp ⟨m', hm'⟩ with hall | hends
      · obtain ⟨hu, p, -, hp, hroom⟩ := hs
        rw [h.used c hc] at hu
        rw [h.size c hc] at hroom
        rcases hall c hc with hused | hsmall
        · exact absurd (hu.symm.trans hused) Bool.false_ne_true
        · omega
      · exact hnot ⟨hends, c.addr, hb, hends.skipped h hc hk (by omega) hs⟩
  · constructor
    · rintro himp ⟨hnone, b, hb, hskip⟩
      exact himp hnone b hb (hskip.serviceable halign)
    · intro hnot hnone b hb hs
      obtain ⟨c, hc, rfl⟩ := (mem_blocks h).mp hb
      exact hnot ⟨hnone, c.addr, hb, skipped_of_serviceable h hc hk hs (hnone _ hb)⟩

/-- Three blocks below the end of the address space, the middle one used. -/
def highCells : List Cell :=
  [⟨0xfffffe2c, 0x80, false⟩, ⟨0xfffffebc, 0xe8, true⟩, ⟨0xffffffb4, 4, false⟩]

def highHeap : Mm where
  firstBlock := 0xfffffe2c
  header a :=
    if a = 0xfffffe2c then ⟨0, 0xfffffebc, 0x80, false⟩
    else if a = 0xfffffebc then ⟨0xfffffe2c, 0xffffffb4, 0xe8, true⟩
    else ⟨0xfffffebc, 0, 4, false⟩
  kernelDataEnd := 0xfffffe2c
  kernelDataspaceEnd := 0xfffffe2c
  initializationCompleted := true

theorem highHeap_heap : Heap 0xfffffe2c 0xffffffc8 highHeap highCells :=
  ⟨⟨rfl, ⟨rfl, rfl, rfl, rfl, rfl, rfl, trivial⟩, by decide, by decide⟩,
    ⟨⟨rfl, rfl, rfl, rfl⟩, by unfold Sized; decide, by decide, by decide, by decide⟩, rfl,
    by decide⟩

/-- There is no room for 300 bytes. -/
theorem highHeap_complete : (∃ m', allocate highHeap 300 (2 ^ 2) = some (0, m')) ∧
    ∀ b ∈ blocks highHeap, ¬Serviceable highHeap (rounded 300) (2 ^ 2) b := by
  have hnull : (allocate highHeap 300 (2 ^ 2)).map Prod.fst = some 0 := by decide +kernel
  have hnone : firstFitting highHeap (rounded 300) (2 ^ 2) = none := by decide +kernel
  obtain ⟨⟨p, m'⟩, hm', rfl⟩ := Option.map_eq_some_iff.mp hnull
  refine ⟨⟨m', hm'⟩, ?_⟩
  apply (allocate_complete_iff highHeap_heap (by decide) (by decide) (by decide)).1.mpr ?_ m' hm'
  rintro ⟨⟨b, hb, -⟩, -⟩
  cases hnone.symm.trans hb

/-- The heap of a kernel image that ends in the middle of a double word. -/
def oddHeap : Mm := initializeMm { layout with kernelDataEnd := 0x81010004 }

/-- Null, with room for the request in the first block; and no block found for a stack aligned to
double words, with four megabytes free. -/
theorem allocate_incomplete :
    (∃ m', allocate highHeap 4 64 = some (0, m')) ∧ 0xfffffe2c ∈ blocks highHeap ∧
      Serviceable highHeap (rounded 4) 64 0xfffffe2c ∧
    (∀ b ∈ blocks oddHeap, ¬Fits oddHeap (rounded 4096) 8 b) ∧ 0x81010004 ∈ blocks oddHeap ∧
      Serviceable oddHeap (rounded 4096) 8 0x81010004 := by
  refine ⟨?_, by decide +kernel, ⟨by decide, 0xfffffe80, by decide, by decide, by decide⟩,
    by decide +kernel, by decide +kernel,
    ⟨by decide, 0x81010028, by decide, by decide, by decide⟩⟩
  have hnull : (allocate highHeap 4 64).map Prod.fst = some 0 := by decide +kernel
  obtain ⟨⟨p, m'⟩, hm', rfl⟩ := Option.map_eq_some_iff.mp hnull
  exact ⟨m', hm'⟩

/-! ## Exact arithmetic -/

/-- The subtraction in the split of `take`, if there is one. -/
def takeDifferences (m : Mm) (block size : Nat) : List (Nat × Nat) :=
  if size < (m.header block).size then [((m.header block).size, size)] else []

/-- The differences of sizes and offsets that a round of the search takes: `get_size() - offset`,
and `size - offset` in each split. -/
def differences (size alignment : Nat) (m : Mm) (current : Nat) : List (Nat × Nat) :=
  if size ≤ (m.header current).size ∧ (m.header current).used = false then
    let offset := alignmentOffset (getAddress current) alignment
    if offset = 0 then takeDifferences m current size
    else if sizeofBlock < offset then
      ((m.header current).size, offset) ::
        if size ≤ sub (m.header current).size offset then
          let (splitBlock, m') := split m current (sub offset sizeofBlock)
          ((m.header current).size, sub offset sizeofBlock) ::
            if splitBlock = 0 then [] else takeDifferences m' splitBlock size
        else []
    else []
  else []

/-- The differences that the search takes, up to the round in which it stops. -/
def loopDifferences (size alignment : Nat) (m : Mm) : Nat → Nat → List (Nat × Nat)
  | 0, _ => []
  | fuel + 1, current =>
    differences size alignment m current ++
      match tryBlock size alignment m 0 current with
      | .next _ =>
        if (m.header current).next = 0 then []
        else loopDifferences size alignment m fuel (m.header current).next
      | _ => []

/-- No rounding and no difference on the path of the call leaves the 32 bits. -/
def NoWrap (m : Mm) (size alignment : Nat) : Prop :=
  size ≠ 0 → size + 3 < 2 ^ 32 ∧
    ∀ d ∈ loopDifferences (wrap (size + 3) &&& 0xfffffffc) alignment m maxBlocks m.firstBlock,
      d.2 ≤ d.1

/-- A pointer that is handed out is aligned, and the memory behind it lies in one unused block. -/
def Placed (m : Mm) (size alignment : Nat) : Prop :=
  ∀ p m', allocate m size alignment = some (p, m') → p ≠ 0 → alignment ∣ p ∧
    ∃ b ∈ blocks m, (m.header b).used = false ∧ b + sizeofBlock ≤ p ∧
      p + size ≤ b + sizeofBlock + (m.header b).size

/-- The block is unused, and it has room for the request at its first aligned address, which is
its data or lies behind more than a header. -/
def Roomy (m : Mm) (size align block : Nat) : Prop :=
  (m.header block).used = false ∧
    (gap align (block + sizeofBlock) = 0 ∨ sizeofBlock < gap align (block + sizeofBlock)) ∧
    gap align (block + sizeofBlock) + size ≤ (m.header block).size
  deriving Decidable

/-- The block is unused and no smaller than the request, and it ends before its first aligned
address, which lies behind more than a header. -/
def Short (m : Mm) (size align block : Nat) : Prop :=
  (m.header block).used = false ∧ size ≤ (m.header block).size ∧
    sizeofBlock < gap align (block + sizeofBlock) ∧
    (m.header block).size < gap align (block + sizeofBlock)
  deriving Decidable

/-- No unused block is large enough, or one has room before any that is short of it. -/
def Exact (m : Mm) (size align : Nat) : Prop :=
  (∀ b ∈ blocks m, (m.header b).used = true ∨ (m.header b).size < size) ∨
    ∃ b ∈ blocks m, Roomy m size align b ∧ ∀ d ∈ blocks m, Short m size align d → b < d

theorem takeDifferences_le (m : Mm) (block size : Nat) :
    ∀ d ∈ takeDifferences m block size, d.2 ≤ d.1 := by
  intro d hd
  rw [takeDifferences] at hd
  split at hd
  next hlt =>
    obtain rfl := List.mem_singleton.mp hd
    exact Nat.le_of_lt hlt
  · cases hd

theorem differences_pass (h : Heap lo hi m l) (hc : c ∈ l) (hk : k < 32)
    (hfits : ¬Fits m size (2 ^ k) c.addr) :
    ∀ d ∈ differences size (2 ^ k) m c.addr, d.2 ≤ d.1 := by
  have hcell := mt (fits_iff h hc hk).mpr hfits
  rw [Fits] at hfits
  rw [getAddress_eq h.toRegion hc, offset_eq_gap hk (data_lt h hc)] at hfits
  simp only [differences, getAddress_eq h.toRegion hc, offset_eq_gap hk (data_lt h hc)]
  set off := gap (2 ^ k) (c.data sizeofBlock)
  by_cases hfit : size ≤ (m.header c.addr).size ∧ (m.header c.addr).used = false
  · have hoff : ¬(off = 0 ∨ sizeofBlock < off ∧ size ≤ sub (m.header c.addr).size off) :=
      fun ho => hfits ⟨hfit.1, hfit.2, ho⟩
    rw [if_pos hfit, if_neg (fun h0 => hoff (.inl h0))]
    by_cases hbehind : sizeofBlock < off
    · rw [if_pos hbehind, if_neg (fun hle => hoff (.inr ⟨hbehind, hle⟩))]
      rw [h.size c hc, h.used c hc] at hfit
      simp only [List.mem_singleton, forall_eq, h.size c hc]
      by_contra hlt
      exact hcell ⟨hfit.symm, .inr ⟨hbehind, .inl (by omega)⟩⟩
    · simp [if_neg hbehind]
  · simp [if_neg hfit]

theorem differences_stop (h : Heap lo hi m l) (hc : c ∈ l) (hk : k < 32)
    (hfits : Fits m size (2 ^ k) c.addr) :
    (∀ d ∈ differences size (2 ^ k) m c.addr, d.2 ≤ d.1) ↔
      gap (2 ^ k) (c.data sizeofBlock) ≤ c.size := by
  obtain ⟨hle, hu, hoff⟩ := hfits
  have hgap := gap_lt (p := c.data sizeofBlock) hk
  rw [getAddress_eq h.toRegion hc, offset_eq_gap hk (data_lt h hc)] at hoff
  simp only [differences, getAddress_eq h.toRegion hc, offset_eq_gap hk (data_lt h hc)]
  rw [if_pos ⟨hle, hu⟩]
  set off := gap (2 ^ k) (c.data sizeofBlock)
  by_cases hzero : off = 0
  · rw [if_pos hzero]
    exact iff_of_true (takeDifferences_le _ _ _) (by omega)
  · have hbehind := hoff.resolve_left hzero
    have hfront : sub off sizeofBlock = off - sizeofBlock :=
      sub_of_le (Nat.le_of_lt hbehind.1) (by omega)
    rw [if_neg hzero, if_pos hbehind.1, if_pos hbehind.2, h.size c hc, hfront]
    generalize split m c.addr (off - sizeofBlock) = r
    obtain ⟨b, m₁⟩ := r
    simp only [List.forall_mem_cons]
    refine ⟨fun hall => hall.1, fun hroom => ⟨hroom, by omega, ?_⟩⟩
    by_cases hb : b = 0
    · simp [if_pos hb]
    · rw [if_neg hb]
      exact takeDifferences_le m₁ b size

theorem loopDifferences_step (h : Heap lo hi m (l₁ ++ c :: l₂)) (hk : k < 32) :
    (∀ d ∈ loopDifferences size (2 ^ k) m (fuel + 1) c.addr, d.2 ≤ d.1) ↔
      if Fits m size (2 ^ k) c.addr then gap (2 ^ k) (c.data sizeofBlock) ≤ c.size
      else (m.header c.addr).next ≠ 0 →
        ∀ d ∈ loopDifferences size (2 ^ k) m fuel (m.header c.addr).next, d.2 ≤ d.1 := by
  have hc : c ∈ l₁ ++ c :: l₂ := by simp
  rw [loopDifferences]
  by_cases hfits : Fits m size (2 ^ k) c.addr
  · have hdone := (tryBlock_fits hfits 0).2
    rw [if_pos hfits, ← differences_stop h hc hk hfits]
    cases hstop : tryBlock size (2 ^ k) m 0 c.addr with
    | next p => exact absurd hstop (hdone p)
    | done p m' => simp
    | nullBlock => simp
  · have hpass := differences_pass h hc hk hfits
    rw [if_neg hfits, tryBlock_next hfits, List.forall_mem_append, and_iff_right hpass]
    by_cases hnext : (m.header c.addr).next = 0 <;> simp [hnext]

/-- The differences stay above zero up to the block at which the search stops, and there exactly
if the block reaches the aligned address. -/
theorem loopDifferences_le_iff (l₁ : List Cell) (fuel : Nat) (h : Heap lo hi m (l₁ ++ c :: l₂))
    (hk : k < 32) (hfuel : l₂.length < fuel) :
    (∀ d ∈ loopDifferences size (2 ^ k) m fuel c.addr, d.2 ≤ d.1) ↔
      ∀ b, ((c :: l₂).map Cell.addr).find? (fun b => decide (Fits m size (2 ^ k) b)) = some b →
        gap (2 ^ k) (b + sizeofBlock) ≤ (m.header b).size := by
  induction l₂ generalizing c l₁ fuel with
  | nil =>
    obtain ⟨fuel, rfl⟩ : ∃ n, fuel = n + 1 := ⟨fuel - 1, by omega⟩
    have hnext : (m.header c.addr).next = 0 := h.next_eq
    rw [loopDifferences_step h hk, hnext]
    by_cases hfits : Fits m size (2 ^ k) c.addr <;> simp [hfits, h.size c (by simp), Cell.data]
  | cons e l₂ ih =>
    obtain ⟨fuel, rfl⟩ : ∃ n, fuel = n + 1 := ⟨fuel - 1, by omega⟩
    have hnext : (m.header c.addr).next = e.addr := h.next_eq
    have he0 : e.addr ≠ 0 := Nat.pos_iff_ne_zero.mp (h.toRegion.addr_pos (by simp))
    have hrest := ih (l₁ ++ [c]) fuel (by simpa using h) (by simpa using hfuel)
    rw [loopDifferences_step h hk, hnext, List.map_cons, List.find?_cons]
    by_cases hfits : Fits m size (2 ^ k) c.addr
    · simp [hfits, h.size c (by simp), Cell.data]
    · rw [if_neg hfits, decide_eq_false hfits]
      exact ⟨fun hall => hrest.mp (hall he0), fun hall _ => hrest.mpr hall⟩

theorem fits_iff_roomy (h : Heap lo hi m l) (hc : c ∈ l) (hk : k < 32) :
    Fits m size (2 ^ k) c.addr ↔ Roomy m size (2 ^ k) c.addr ∨ Short m size (2 ^ k) c.addr := by
  rw [fits_iff h hc hk, Roomy, Short, h.used c hc, h.size c hc, Cell.data]
  generalize gap (2 ^ k) (c.addr + sizeofBlock) = off
  constructor
  · rintro ⟨⟨hu, hle⟩, hzero | ⟨hbehind, hshort | hroom⟩⟩
    · exact .inl ⟨hu, .inl hzero, by omega⟩
    · exact .inr ⟨hu, hle, hbehind, hshort⟩
    · exact .inl ⟨hu, .inr hbehind, hroom⟩
  · rintro (⟨hu, hzero | hbehind, hroom⟩ | ⟨hu, hle, hbehind, hshort⟩)
    · exact ⟨⟨hu, by omega⟩, .inl hzero⟩
    · exact ⟨⟨hu, by omega⟩, .inr ⟨hbehind, .inr hroom⟩⟩
    · exact ⟨⟨hu, hle⟩, .inr ⟨hbehind, .inl hshort⟩⟩

/-- The condition, read off the block at which the search stops. -/
theorem exact_iff_first (h : Heap lo hi m l) (hk : k < 32) (hpos : 0 < size) :
    Exact m size (2 ^ k) ↔
      match firstFitting m size (2 ^ k) with
      | some b => Roomy m size (2 ^ k) b
      | none => ∀ b ∈ blocks m, (m.header b).used = true ∨ (m.header b).size < size := by
  have hfits : ∀ b ∈ blocks m,
      (Fits m size (2 ^ k) b ↔ Roomy m size (2 ^ k) b ∨ Short m size (2 ^ k) b) := fun b hb => by
    obtain ⟨c, hc, rfl⟩ := (mem_blocks h).mp hb
    exact fits_iff_roomy h hc hk
  cases hfirst : firstFitting m size (2 ^ k) with
  | none =>
    refine ⟨fun hexact => hexact.resolve_right ?_, .inl⟩
    rintro ⟨b, hb, hroomy, -⟩
    exact firstFitting_none hfirst b hb ((hfits b hb).mpr (.inl hroomy))
  | some b =>
    obtain ⟨c, hc, rfl, hfit⟩ := firstFitting_some h hfirst
    have hmem := addr_mem_blocks h hc
    have hcell := ((fits_iff h hc hk).mp hfit).1
    constructor
    · intro hexact
      obtain ⟨b, hb, hroomy, hbefore⟩ :=
        hexact.resolve_left (mt (all_small_iff h).mp (not_all_small hc hcell.1 hcell.2))
      refine ((hfits _ hmem).mp hfit).resolve_right fun hshort => ?_
      have hlt := hbefore _ hmem hshort
      have hle := firstFitting_le h hfirst hb ((hfits b hb).mpr (.inl hroomy))
      omega
    · intro hroomy
      refine .inr ⟨c.addr, hmem, hroomy, fun d hd hshort => ?_⟩
      have hle := firstFitting_le h hfirst hd ((hfits d hd).mpr (.inr hshort))
      have hne : c.addr ≠ d := by
        rintro rfl
        have hroom := hroomy.2.2
        have hlt := hshort.2.2.2
        omega
      omega

theorem noWrap_iff (h : Heap lo hi m l) (hpos : 0 < size) (hk : k < 32) :
    NoWrap m size (2 ^ k) ↔ size ≤ 0xfffffffc ∧
      ∀ b, firstFitting m (rounded size) (2 ^ k) = some b → Roomy m (rounded size) (2 ^ k) b := by
  have hlen := h.toRegion.length_lt
  have hround := (rounded_spec hpos).2.1
  have hblocks := blocks_eq h
  have hrange : size + 3 < 2 ^ 32 ↔ size ≤ 0xfffffffc := by omega
  obtain ⟨c, l', rfl⟩ := List.exists_cons_of_ne_nil h.nonempty
  have hfirst : m.firstBlock = c.addr := h.first
  rw [NoWrap, hrange, hfirst, imp_iff_right (Nat.pos_iff_ne_zero.mp hpos)]
  refine and_congr_right fun hmax => ?_
  rw [round_size hmax, loopDifferences_le_iff [] maxBlocks h hk
    (by simp only [List.length_cons] at hlen; omega), ← hblocks]
  refine forall_congr' fun b => imp_congr_right fun hb => ?_
  obtain ⟨d, hd, rfl, hfit⟩ := firstFitting_some h hb
  constructor
  · intro hle
    refine ((fits_iff_roomy h hd hk).mp hfit).resolve_right fun hshort => ?_
    exact absurd hshort.2.2.2 (by omega)
  · rintro ⟨-, -, hroom⟩
    omega

/-- A search that stops at a block with room hands out the first aligned address of the block. -/
theorem served_roomy (h : Heap lo hi m l) (hc : c ∈ l) (hk : k < 32) (hpos : 0 < size)
    (hroomy : Roomy m size (2 ^ k) c.addr) :
    ∃ m', served m size (2 ^ k) c.addr =
      some (c.data sizeofBlock + gap (2 ^ k) (c.data sizeofBlock), m') := by
  have hdata := data_lt h hc
  have hle := h.toRegion.data_le hc
  have hroom : gap (2 ^ k) (c.data sizeofBlock) + size ≤ c.size := by
    rw [← h.size c hc]
    exact hroomy.2.2
  rcases served_spec h hc hk ((fits_iff_roomy h hc hk).mpr (.inl hroomy)) with
    ⟨-, m', hm'⟩ | ⟨⟨hbehind, hrefused⟩, -⟩
  · exact ⟨m', by rw [hm', wrap_of_lt (by omega)]⟩
  · simp only [sub] at hrefused
    omega

/-- Exactly when the arithmetic of a call is exact. -/
theorem exact_iff (h : Heap lo hi m l) (hsize : size < 2 ^ 32) (hk : k < 32) :
    Placed m size (2 ^ k) ∧ NoWrap m size (2 ^ k) ↔
      size = 0 ∨ size ≤ 0xfffffffc ∧ Exact m (rounded size) (2 ^ k) := by
  rcases Nat.eq_zero_or_pos size with rfl | hpos
  · refine iff_of_true ⟨?_, fun hne => absurd rfl hne⟩ (.inl rfl)
    intro p m' hp hp0
    rw [allocate, if_pos rfl, Option.some.injEq, Prod.mk.injEq] at hp
    exact absurd hp.1.symm hp0
  have hround := rounded_spec hpos
  rw [noWrap_iff h hpos hk, exact_iff_first h hk (by omega), and_left_comm,
    or_iff_right (by omega)]
  refine and_congr_right fun hmax => ?_
  rw [Placed, allocate_first h hpos, wrap_rounded hmax]
  cases hfirst : firstFitting m (rounded size) (2 ^ k) with
  | none =>
    simp only [reduceCtorEq, false_implies, implies_true, and_true, Option.some.injEq,
      Prod.mk.injEq, and_imp]
    rcases leftover_cases (rounded size) l 0 with ⟨hall, hl⟩ | ⟨c, hc, hcell, hl⟩
    · exact iff_of_true (fun p m' hp _ hp0 => absurd (hl.symm.trans hp).symm hp0)
        ((all_small_iff h).mpr hall)
    · refine iff_of_false (fun hplaced => ?_)
        (mt (all_small_iff h).mp (not_all_small hc hcell.1 hcell.2))
      have hdata : c.data sizeofBlock ≠ 0 := by
        simp only [Cell.data, sizeofBlock]
        omega
      have haligned := (hplaced _ m hl rfl hdata).1
      have hzero := (gap_eq_zero_iff (Nat.two_pow_pos k)).mpr haligned
      exact firstFitting_none hfirst _ (addr_mem_blocks h hc)
        ((fits_iff h hc hk).mpr ⟨hcell, .inl hzero⟩)
  | some b =>
    obtain ⟨c, hc, rfl, -⟩ := firstFitting_some h hfirst
    simp only [Option.some.injEq, forall_eq', and_iff_right_iff_imp]
    intro hroomy p m' hp hp0
    obtain ⟨m₁, hm₁⟩ := served_roomy h hc hk (by omega) hroomy
    rw [hm₁, Option.some.injEq, Prod.mk.injEq] at hp
    obtain ⟨rfl, -⟩ := hp
    have hroom := hroomy.2.2
    have hdef : c.addr + sizeofBlock = c.data sizeofBlock := rfl
    refine ⟨(gap_spec (Nat.two_pow_pos k)).1, c.addr, addr_mem_blocks h hc, hroomy.1, Nat.le_add_right _ _, ?_⟩
    rw [hdef] at hroom ⊢
    omega

/-- The first block has room for 100 bytes. -/
theorem highHeap_exact : Placed highHeap 100 (2 ^ 2) ∧ NoWrap highHeap 100 (2 ^ 2) := by
  apply (exact_iff highHeap_heap (by decide) (by decide)).mpr
  exact .inr ⟨by decide, .inr ⟨0xfffffe2c, by decide +kernel, by decide +kernel, by decide +kernel⟩⟩

/-- Four bytes aligned to a gigabyte are handed out behind the heap, and a size at the end of the
32 bits is rounded to nothing. -/
theorem allocate_wraps :
    (allocate (initializeMm layout) 4 (2 ^ 30)).map Prod.fst = some 0xc0000000 ∧
      (allocate (initializeMm layout) 0xfffffffd 4).map Prod.fst = some 0x81010010 ∧
      ¬(Placed (initializeMm layout) 4 (2 ^ 30) ∧ NoWrap (initializeMm layout) 4 (2 ^ 30)) ∧
      ¬(Placed (initializeMm layout) 0xfffffffd 4 ∧
        NoWrap (initializeMm layout) 0xfffffffd 4) := by
  refine ⟨by decide +kernel, by decide +kernel, ?_, ?_⟩
  · rintro ⟨hplaced, -⟩
    have hfirst : (allocate (initializeMm layout) 4 (2 ^ 30)).map Prod.fst = some 0xc0000000 := by
      decide +kernel
    obtain ⟨⟨p, m'⟩, hm', rfl⟩ := Option.map_eq_some_iff.mp hfirst
    obtain ⟨-, b, hb, -, -, hroom⟩ := hplaced _ m' hm' (by decide)
    have hend : ∀ b ∈ blocks (initializeMm layout),
        b + sizeofBlock + ((initializeMm layout).header b).size < 0xc0000000 := by decide +kernel
    have hbefore := hend b hb
    omega
  · rintro ⟨-, hno⟩
    exact absurd (hno (by decide)).1 (by decide)

end WagtailHeap
