import Wagtail.HeapCalls
import Wagtail.Library.Runs

/-!
# Allocating and freeing, in every order

Runs of the calls that the kernel makes, from the heap that `mm::initialize`
builds. The block list stays well formed, and every pointer handed out and not
yet given back is the data of its own used block, as long as no search ends with
a return address left over from a block that could not serve the request.
-/
namespace WagtailHeap

open Word (wrap sub wrap_of_lt sub_of_le)
open FirstFit
open Runs (Run Guarded)

/-! ## Calls and states -/

/-- Memory that has been handed out, and what was asked for. -/
structure Allocation where
  pointer : Nat
  size : Nat
  alignment : Nat
  deriving DecidableEq, Repr

/-- The manager, and the allocations that have not been given back. -/
structure State where
  mm : Mm
  live : List Allocation

inductive Call where
  | allocate (size alignment : Nat)
  | free (memory : Nat)
  deriving DecidableEq, Repr

/-- What the call sites keep to. -/
def Call.Allowed (s : State) : Call → Prop
  | .allocate size alignment =>
    1 ≤ size ∧ size ≤ 0xfffffffc ∧ (∃ k, alignment = 2 ^ k) ∧ alignment ≤ max 4 (rounded size)
  | .free memory => memory = 0 ∨ ∃ a ∈ s.live, a.pointer = memory

/-- A call and its effect on what is live. `none` stands for a call that does not return. -/
def perform (s : State) : Call → Option State
  | .allocate size alignment =>
    (allocate s.mm size alignment).map fun (p, mm) =>
      { mm, live := if p = 0 then s.live else ⟨p, size, alignment⟩ :: s.live }
  | .free memory =>
    (free s.mm memory).map fun mm => { mm, live := s.live.eraseP (·.pointer = memory) }

def Step (s : State) (c : Call) (t : State) : Prop := perform s c = some t

instance (s : State) (c : Call) : Decidable (c.Allowed s) :=
  match c with
  | .allocate size alignment =>
    have hpower : 2 ^ alignment.log2 = alignment ↔ ∃ k, alignment = 2 ^ k :=
      ⟨fun h => ⟨_, h.symm⟩, fun ⟨k, hk⟩ => by rw [hk, Nat.log2_two_pow]⟩
    haveI := decidable_of_iff _ hpower
    inferInstanceAs (Decidable (1 ≤ size ∧ size ≤ 0xfffffffc ∧ (∃ k, alignment = 2 ^ k) ∧
      alignment ≤ max 4 (rounded size)))
  | .free memory => inferInstanceAs (Decidable (memory = 0 ∨ ∃ a ∈ s.live, a.pointer = memory))

/-- The system as `mm::initialize` leaves it. -/
def booted (m : Mm) : State := ⟨initializeMm m, []⟩

/-- What the linker script and the early allocations leave to `mm::initialize`. -/
structure Bootable (m : Mm) : Prop where
  positive : 0 < m.kernelDataEnd
  aligned : 4 ∣ m.kernelDataEnd
  room : m.kernelDataEnd + sizeofBlock < (m.kernelDataspaceEnd + 4095) / 4096 * 4096 + kernelHeapSize
  bounded : m.kernelDataspaceEnd + 4095 + 4095 + kernelHeapSize ≤ 2 ^ 32

/-! ## What is promised of a state -/

/-- The blocks met by following `next`. -/
def walk (m : Mm) : Nat → Nat → List Nat
  | 0, _ => []
  | fuel + 1, block => if block = 0 then [] else block :: walk m fuel (m.header block).next

def blocks (m : Mm) : List Nat := walk m maxBlocks m.firstBlock

/-- The header of a block as a cell. -/
def cellAt (m : Mm) (block : Nat) : Cell := ⟨block, (m.header block).size, (m.header block).used⟩

/-- The block list between `lo` and `hi` and the allocations that own blocks of it. -/
structure WellFormed (lo hi : Nat) (s : State) : Prop where
  /-- the walk from `first_block` ends with a null pointer -/
  complete : ∀ b ∈ blocks s.mm, (s.mm.header b).next = 0 ∨ (s.mm.header b).next ∈ blocks s.mm
  first : (s.mm.header s.mm.firstBlock).prev = 0
  inverse : ∀ a ∈ blocks s.mm, ∀ b ∈ blocks s.mm,
    (s.mm.header a).next = b ↔ (s.mm.header b).prev = a
  tiles : Tiles sizeofBlock lo ((blocks s.mm).map (cellAt s.mm)) hi
  sized : ∀ b ∈ blocks s.mm, 0 < (s.mm.header b).size ∧ 4 ∣ (s.mm.header b).size
  owned : ∀ a ∈ s.live, ∃! b, b ∈ blocks s.mm ∧ (s.mm.header b).used = true ∧
    b + sizeofBlock = a.pointer
  aligned : ∀ a ∈ s.live, a.alignment ∣ a.pointer
  roomy : ∀ a ∈ s.live, a.size ≤ (s.mm.header (a.pointer - sizeofBlock)).size
  apart : s.live.Pairwise fun a b =>
    a.pointer + a.size ≤ b.pointer ∨ b.pointer + b.size ≤ a.pointer
  clear : ∀ a ∈ s.live, ∀ b ∈ blocks s.mm,
    b + sizeofBlock ≤ a.pointer ∨ a.pointer + a.size ≤ b

/-- The test of a search round: the block can serve a request of the rounded size. -/
def Fits (m : Mm) (size alignment block : Nat) : Prop :=
  size ≤ (m.header block).size ∧ (m.header block).used = false ∧
    (alignmentOffset (getAddress block) alignment = 0 ∨
      sizeofBlock < alignmentOffset (getAddress block) alignment ∧
        size ≤ sub (m.header block).size (alignmentOffset (getAddress block) alignment))
  deriving Decidable

/-- A block serves the request, or no unused block is as large as the request. -/
def Call.Decisive (s : State) : Call → Prop
  | .allocate size alignment =>
    (∃ b ∈ blocks s.mm, Fits s.mm (rounded size) alignment b) ∨
      ∀ b ∈ blocks s.mm, (s.mm.header b).used = true ∨ (s.mm.header b).size < rounded size
  | .free _ => True

instance (s : State) (c : Call) : Decidable (c.Decisive s) :=
  match c with
  | .allocate size alignment => inferInstanceAs (Decidable
      ((∃ b ∈ blocks s.mm, Fits s.mm (rounded size) alignment b) ∨
        ∀ b ∈ blocks s.mm, (s.mm.header b).used = true ∨ (s.mm.header b).size < rounded size))
  | .free _ => inferInstanceAs (Decidable True)

/-! ## The invariant -/

variable {m : Mm} {lo hi size k : Nat} {c : Cell} {l l₁ l₂ : List Cell} {s t : State}

/-- The used cells are the live allocations. -/
structure Owned (l : List Cell) (live : List Allocation) : Prop where
  owners : (live.map Allocation.pointer).Perm ((usedCells l).map (Cell.data sizeofBlock))
  aligned : ∀ a ∈ live, a.alignment ∣ a.pointer
  roomy : ∀ a ∈ live, ∀ c ∈ usedCells l, c.data sizeofBlock = a.pointer → a.size ≤ c.size

/-- The memory represents a list of cells whose used ones are the live allocations. -/
def Sound (lo hi : Nat) (s : State) : Prop := ∃ l, Heap lo hi s.mm l ∧ Owned l s.live

theorem data_inj {d : Cell} (hr : Region lo hi l) (hc : c ∈ l) (hd : d ∈ l)
    (he : c.data sizeofBlock = d.data sizeofBlock) : c = d :=
  hr.tiles.addr_inj (by decide) hc hd (by simpa [Cell.data] using he)

/-- Walking the headers of a represented list visits its cells. -/
theorem walk_eq {p fuel : Nat} {as : List Nat} (hpos : ∀ a ∈ as, a ≠ 0)
    (hl : Links.Seg (fun a => (m.header a).next) (fun a => (m.header a).prev) p as 0)
    (hfuel : as.length < fuel) : walk m fuel (as.headD 0) = as := by
  induction as generalizing p fuel with
  | nil =>
    cases fuel with
    | zero => rfl
    | succ fuel => simp [walk]
  | cons a as ih =>
    obtain ⟨fuel, rfl⟩ : ∃ n, fuel = n + 1 := ⟨fuel - 1, by omega⟩
    obtain ⟨-, hn, hl⟩ := hl
    simp only at hn
    rw [List.headD_cons, walk, if_neg (hpos a (by simp)), hn,
      ih (fun b hb => hpos b (List.mem_cons_of_mem _ hb)) hl (by simpa using hfuel)]

theorem blocks_eq (h : Heap lo hi m l) : blocks m = l.map Cell.addr := by
  rw [blocks, h.first]
  refine walk_eq ?_ h.linked (by simpa using h.toRegion.length_lt)
  intro a ha
  obtain ⟨c, hc, rfl⟩ := List.mem_map.mp ha
  exact Nat.pos_iff_ne_zero.mp (h.toRegion.addr_pos hc)

theorem Heap.forall_blocks (h : Heap lo hi m l) {P : Nat → Prop} :
    (∀ b ∈ blocks m, P b) ↔ ∀ c ∈ l, P c.addr := by
  rw [blocks_eq h]
  simp

theorem Heap.cells_eq (h : Heap lo hi m l) : (blocks m).map (cellAt m) = l := by
  rw [blocks_eq h, List.map_map]
  calc l.map (cellAt m ∘ Cell.addr) = l.map id := by
        refine List.map_congr_left ?_
        intro c hc
        simp [cellAt, h.size c hc, h.used c hc]
    _ = l := List.map_id l

theorem Region.data_nodup (hr : Region lo hi l) :
    ((usedCells l).map (Cell.data sizeofBlock)).Nodup := by
  have hnd := hr.nodup
  rw [List.Nodup, List.pairwise_map] at hnd ⊢
  refine (hnd.filter _).imp ?_
  intro c d hcd he
  exact hcd (by simpa [Cell.data] using he)

/-- The invariant gives everything that is promised. -/
theorem Sound.wellFormed (hs : Sound lo hi s) : WellFormed lo hi s := by
  obtain ⟨l, h, ho⟩ := hs
  have hr := h.toRegion
  have hnd := hr.nodup
  have h0 : (0 : Nat) ∉ l.map Cell.addr := by
    intro hmem
    obtain ⟨c, hc, he⟩ := List.mem_map.mp hmem
    exact absurd he (Nat.pos_iff_ne_zero.mp (hr.addr_pos hc))
  have howner : ∀ a ∈ s.live, ∃ c ∈ l, c.used = true ∧ c.data sizeofBlock = a.pointer ∧
      a.size ≤ c.size := by
    intro a ha
    obtain ⟨c, hc, he⟩ := List.mem_map.mp (ho.owners.mem_iff.mp (List.mem_map_of_mem ha))
    have hcl := mem_usedCells.mp hc
    exact ⟨c, hcl.1, hcl.2, he, ho.roomy a ha c hc he⟩
  constructor
  · rw [h.forall_blocks, blocks_eq h]
    intro c hc
    obtain ⟨l₁, l₂, rfl⟩ := List.append_of_mem hc
    rw [h.next_eq]
    cases l₂ <;> simp
  · obtain ⟨c, l, rfl⟩ := List.exists_cons_of_ne_nil h.nonempty
    rw [h.first]
    exact h.linked.1
  · rw [blocks_eq h]
    intro a ha b hb
    exact h.linked.inverse h0 h0 ha hb
  · rw [h.cells_eq]
    exact hr.tiles
  · rw [h.forall_blocks]
    intro c hc
    rw [h.size c hc]
    exact hr.size_pos hc
  · intro a ha
    obtain ⟨c, hc, hu, hdata, -⟩ := howner a ha
    refine ⟨c.addr, ⟨?_, by rw [h.used c hc, hu], hdata⟩, ?_⟩
    · rw [blocks_eq h]
      exact List.mem_map_of_mem hc
    · rintro b ⟨-, -, hb⟩
      simp only [Cell.data] at hdata
      omega
  · exact ho.aligned
  · intro a ha
    obtain ⟨c, hc, -, hdata, hroom⟩ := howner a ha
    have haddr : a.pointer - sizeofBlock = c.addr := by
      rw [← hdata, Cell.data, Nat.add_sub_cancel]
    rwa [haddr, h.size c hc]
  · have hpnd := (ho.owners.nodup_iff).mpr hr.data_nodup
    rw [List.Nodup, List.pairwise_map] at hpnd
    refine hpnd.imp_of_mem ?_
    intro a b ha hb hne
    obtain ⟨c, hc, -, hcdata, hcroom⟩ := howner a ha
    obtain ⟨d, hd, -, hddata, hdroom⟩ := howner b hb
    have hcd : c ≠ d := by
      rintro rfl
      exact hne (hcdata.symm.trans hddata)
    have := hr.tiles.apart hc hd hcd
    simp only [Cell.data, Cell.fin] at *
    omega
  · intro a ha
    rw [h.forall_blocks]
    intro d hd
    obtain ⟨c, hc, -, hcdata, hcroom⟩ := howner a ha
    by_cases hcd : c = d
    · subst hcd
      simp only [Cell.data] at hcdata
      omega
    · have := hr.tiles.apart hc hd hcd
      simp only [Cell.data, Cell.fin, sizeofBlock] at *
      omega

/-! ## Starting -/

theorem align_page {x : Nat} (hx : x < 2 ^ 32) : wrap x &&& maskLeft 4096 = x / 4096 * 4096 := by
  rw [wrap_of_lt hx]
  exact and_maskLeft (k := 12) (by decide) hx

theorem booted_sound (hb : Bootable m) :
    Sound m.kernelDataEnd (initializeMm m).kernelDataspaceEnd (booted m) := by
  obtain ⟨hpos, hdvd, hroom, hbound⟩ := hb
  simp only [sizeofBlock, kernelHeapSize] at hroom hbound
  have hend : (initializeMm m).kernelDataspaceEnd =
      (m.kernelDataspaceEnd + 4095) / 4096 * 4096 + 4 * 1024 * 1024 := by
    simp only [initializeMm, kernelHeapSize]
    obtain ⟨start, hstart⟩ : ∃ p, p = (m.kernelDataspaceEnd + 4095) / 4096 * 4096 := ⟨_, rfl⟩
    have hagain : (start + 4095) / 4096 * 4096 = start := by omega
    rw [align_page (x := m.kernelDataspaceEnd + 4095) (by omega), ← hstart,
      align_page (x := start + 4095) (by omega), hagain, align_page (by omega)]
    have hdvd : 4096 ∣ start + 4 * 1024 * 1024 :=
      Nat.dvd_add (hstart ▸ Nat.dvd_mul_left 4096 _) (by decide)
    exact Nat.div_mul_cancel hdvd
  set e := (initializeMm m).kernelDataspaceEnd with he
  have hsize : sub (sub e m.kernelDataEnd) sizeofBlock = e - m.kernelDataEnd - 16 := by
    rw [sub_of_le (a := e) (by omega) (by omega)]
    exact sub_of_le (by simp only [sizeofBlock]; omega) (by omega)
  refine ⟨[⟨m.kernelDataEnd, e - m.kernelDataEnd - 16, false⟩], ⟨⟨rfl, ?_, ?_, ?_⟩, ?_, rfl, by simp⟩, ?_⟩
  · simp [booted, initializeMm]
  · simp only [List.mem_singleton, forall_eq]
    rw [← hsize, he]
    simp [booted, initializeMm]
  · simp [booted, initializeMm]
  · refine ⟨?_, ?_, hpos, hdvd, by omega⟩
    · simp only [tiles_cons, tiles_nil, Cell.fin, sizeofBlock, true_and]
      omega
    · simp only [sized_cons, sized_nil, and_true]
      omega
  · exact ⟨by simp [booted, usedCells], by simp [booted], by simp [booted]⟩

/-! ## One call -/

/-- The test of a search round is the one that places the request in the cell. -/
theorem fits_iff_place (h : Heap lo hi m l) (hc : c ∈ l) (hk : k < 32) (halign : 2 ^ k ≤ size) :
    Fits m size (2 ^ k) c.addr ↔ place sizeofBlock size (2 ^ k) c ≠ none := by
  have hr := h.toRegion
  have hdata := hr.data_le hc
  have hgap := (gap_spec (p := c.data sizeofBlock) (Nat.two_pow_pos k)).2
  unfold Fits place
  rw [h.size c hc, h.used c hc, getAddress_eq hr hc]
  by_cases hfit : c.used = false ∧ size ≤ c.size
  swap
  · rw [if_neg hfit]
    tauto
  have hfin := hr.fin_le hc
  rw [if_pos hfit, offset_eq hk (by omega), sub_of_le (a := c.size) (by omega) (by omega)]
  split
  next hzero => simp [hfit, hzero]
  next hzero =>
    split
    next hbehind =>
      simp only [ne_eq, reduceCtorEq, not_false_eq_true, iff_true]
      exact ⟨hfit.2, hfit.1, Or.inr ⟨hbehind.1, by omega⟩⟩
    next hbehind =>
      simp only [ne_eq, not_true_eq_false, iff_false]
      rintro ⟨-, -, h0 | ⟨hlo, hhi⟩⟩
      · exact hzero h0
      · exact hbehind ⟨hlo, by omega⟩

/-- A search that fails leaves the start value, unless an unused cell was large enough. -/
theorem leftover_cases (size : Nat) (l : List Cell) (p : Nat) :
    ((∀ c ∈ l, c.used = true ∨ c.size < size) ∧ l.foldl (leftover size) p = p) ∨
      ∃ c ∈ l, (c.used = false ∧ size ≤ c.size) ∧
        l.foldl (leftover size) p = c.data sizeofBlock := by
  induction l generalizing p with
  | nil => simp
  | cons c l ih =>
    rw [List.foldl_cons]
    rcases ih (leftover size p c) with ⟨hall, hl⟩ | ⟨d, hd, hu, hl⟩
    · by_cases hfit : c.used = false ∧ size ≤ c.size
      · refine Or.inr ⟨c, by simp, hfit, ?_⟩
        rw [hl, leftover, if_pos hfit]
      · refine Or.inl ⟨?_, by rw [hl, leftover, if_neg hfit]⟩
        refine List.forall_mem_cons.mpr ⟨?_, hall⟩
        cases hu : c.used with
        | true => exact Or.inl rfl
        | false => exact Or.inr (by simpa [hu] using hfit)
    · exact Or.inr ⟨d, List.mem_cons_of_mem _ hd, hu, hl⟩

/-- A placement gives the new allocation a used cell of its own. -/
theorem Owned.serve {live : List Allocation} {cs : List Cell} {p align : Nat} (ho : Owned l live)
    (hserve : Serves (rounded size) align l p cs) (hpos : 0 < size) (hr : Region lo hi cs) :
    Owned cs (⟨p, size, align⟩ :: live) := by
  obtain ⟨⟨d, l₁, l₂, hl, hcs, rfl, hroom⟩, halign⟩ := hserve
  have hnd := hr.data_nodup
  have howners := ho.owners
  rw [hcs, List.map_append, List.map_cons, List.nodup_middle, ← List.map_append, ← hl,
    List.nodup_cons] at hnd
  refine ⟨?_, ?_, ?_⟩
  · rw [hcs, List.map_append, List.map_cons, List.map_cons]
    refine (howners.cons _).trans ?_
    rw [hl, List.map_append]
    exact List.perm_middle.symm
  · exact List.forall_mem_cons.mpr ⟨halign, ho.aligned⟩
  · refine List.forall_mem_cons.mpr ⟨?_, ?_⟩
    · intro c hc he
      have hd : d ∈ usedCells cs := by simp [hcs]
      obtain rfl := data_inj hr (mem_usedCells.mp hc).1 (mem_usedCells.mp hd).1 he
      exact Nat.le_trans (rounded_spec hpos).2.2.1 hroom
    · intro a ha c hc he
      have hmem : a.pointer ∈ (usedCells l).map (Cell.data sizeofBlock) :=
        howners.mem_iff.mp (List.mem_map_of_mem ha)
      have hcd : c ≠ d := by
        rintro rfl
        exact hnd.1 (he ▸ hmem)
      refine ho.roomy a ha c ?_ he
      rw [hcs] at hc
      rw [hl]
      simp only [List.mem_append, List.mem_cons] at hc ⊢
      tauto

/-- Giving a cell back takes its allocation, and no other, out of the live ones. -/
theorem Owned.release {live : List Allocation} (ho : Owned (l₁ ++ c :: l₂) live)
    (hr : Region lo hi (l₁ ++ c :: l₂)) (hc : c.used = true) :
    Owned (release sizeofBlock l₁ c l₂)
      (live.eraseP (·.pointer = c.data sizeofBlock)) := by
  have howners := ho.owners
  have hnd := hr.data_nodup
  rw [usedCells_append, usedCells_cons_used hc] at howners hnd
  have hpnd := howners.nodup_iff.mpr hnd
  have hsub : live.eraseP (·.pointer = c.data sizeofBlock) ⊆ live := List.eraseP_subset
  refine ⟨?_, fun a ha => ho.aligned a (hsub ha), ?_⟩
  · have herase : (live.eraseP (·.pointer = c.data sizeofBlock)).map Allocation.pointer =
        (live.map Allocation.pointer).erase (c.data sizeofBlock) := by
      rw [List.erase_eq_eraseP', List.eraseP_map]
      rfl
    rw [herase, release_used]
    refine (howners.erase _).trans ?_
    rw [List.map_append, List.map_cons, List.map_append]
    refine (List.perm_middle.erase _).trans ?_
    rw [List.erase_cons_head]
  · intro a ha d hd he
    rw [release_used] at hd
    refine ho.roomy a (hsub ha) d ?_ he
    rw [usedCells_append, usedCells_cons_used hc]
    simp only [List.mem_append, List.mem_cons] at hd ⊢
    tauto

theorem decisive_iff (h : Heap lo hi s.mm l) (hk : k < 32) (halign : 2 ^ k ≤ rounded size) :
    (Call.allocate size (2 ^ k)).Decisive s ↔
      firstFit sizeofBlock (rounded size) (2 ^ k) l ≠ none ∨
        ∀ c ∈ l, c.used = true ∨ c.size < rounded size := by
  have hfits : (∃ b ∈ blocks s.mm, Fits s.mm (rounded size) (2 ^ k) b) ↔
      firstFit sizeofBlock (rounded size) (2 ^ k) l ≠ none := by
    rw [ne_eq, firstFit_eq_none_iff, blocks_eq h]
    simp only [List.mem_map, exists_exists_and_eq_and, not_forall, exists_prop]
    refine exists_congr fun c => and_congr_right fun hc => ?_
    exact fits_iff_place h hc hk halign
  have hlarge : (∀ b ∈ blocks s.mm, (s.mm.header b).used = true ∨
      (s.mm.header b).size < rounded size) ↔ ∀ c ∈ l, c.used = true ∨ c.size < rounded size := by
    rw [h.forall_blocks]
    refine forall₂_congr fun c hc => ?_
    rw [h.size c hc, h.used c hc]
  rw [Call.Decisive, hfits, hlarge]

/-- An allocation that finds a block, or none of the size, keeps the invariant; any
other one hands out the data of an unused block. -/
theorem Sound.allocate {align : Nat} (hs : Sound lo hi s)
    (hallowed : (Call.allocate size align).Allowed s) :
    ∃ t, perform s (.allocate size align) = some t ∧
      ((Call.allocate size align).Decisive s → Sound lo hi t) ∧
      (¬ (Call.allocate size align).Decisive s → ¬ WellFormed lo hi t) := by
  obtain ⟨l, h, ho⟩ := hs
  obtain ⟨hpos, hmax, ⟨k, rfl⟩, halign⟩ := hallowed
  obtain ⟨hdvd, hfour, -, hle⟩ := rounded_spec hpos
  have hk : k < 32 := by
    refine (Nat.pow_lt_pow_iff_right (by decide : 1 < 2)).mp ?_
    omega
  have hspec := allocate_spec h hpos hmax halign
  have hdec := decisive_iff h hk (show 2 ^ k ≤ rounded size by omega)
  simp only [perform]
  split at hspec
  next p cs hfit =>
    obtain ⟨m', hcall, hm'⟩ := hspec
    obtain ⟨hserve, hr', -⟩ := firstFit_serves h.toRegion hfit hdvd (by omega)
    have hp : p ≠ 0 := by
      obtain ⟨⟨d, l₁, l₂, -, -, rfl, -⟩, -⟩ := hserve
      simp [Cell.data]
    refine ⟨_, by rw [hcall]; rfl, fun _ => ⟨cs, hm', ?_⟩,
      fun hnot => absurd (hdec.mpr (Or.inl (by simp [hfit]))) hnot⟩
    simp only [if_neg hp]
    exact ho.serve hserve hpos hr'
  next hnone =>
    rcases leftover_cases (rounded size) l 0 with ⟨hall, hl⟩ | ⟨c, hc, hu, hl⟩
    · refine ⟨s, by rw [hspec, hl]; rfl, fun _ => ⟨l, h, ho⟩, ?_⟩
      exact fun hnot => absurd (hdec.mpr (Or.inr hall)) hnot
    · have hne : c.data sizeofBlock ≠ 0 := by simp [Cell.data]
      refine ⟨⟨s.mm, ⟨c.data sizeofBlock, size, 2 ^ k⟩ :: s.live⟩, ?_, ?_, ?_⟩
      · rw [hspec, hl, Option.map_some, if_neg hne]
      · intro hdecisive
        have hall := (hdec.mp hdecisive).resolve_left (fun hne => hne hnone)
        rcases hall c hc with hused | hsmall
        · exact absurd (hu.1.symm.trans hused) Bool.false_ne_true
        · omega
      · -- the block at the pointer handed out is still unused
        intro _ hwell
        obtain ⟨b, ⟨-, hused, hdata⟩, -⟩ := hwell.owned _ (List.mem_cons_self ..)
        have hb : b = c.addr := by
          simp only [Cell.data] at hdata
          omega
        simp only [hb, h.used c hc, hu.1, Bool.false_eq_true] at hused

theorem Sound.free {memory : Nat} (hs : Sound lo hi s) (hallowed : (Call.free memory).Allowed s) :
    ∃ t, perform s (.free memory) = some t ∧ Sound lo hi t := by
  obtain ⟨l, h, ho⟩ := hs
  have hmem : ∀ a ∈ s.live, ∃ c ∈ l, c.used = true ∧ c.data sizeofBlock = a.pointer := by
    intro a ha
    obtain ⟨c, hc, he⟩ := List.mem_map.mp (ho.owners.mem_iff.mp (List.mem_map_of_mem ha))
    exact ⟨c, (mem_usedCells.mp hc).1, (mem_usedCells.mp hc).2, he⟩
  rcases hallowed with rfl | ⟨a, ha, rfl⟩
  · refine ⟨s, ?_, l, h, ho⟩
    have hnull : ∀ a ∈ s.live, ¬ decide (a.pointer = 0) = true := by
      intro a ha he
      obtain ⟨c, -, -, hdata⟩ := hmem a ha
      have : a.pointer = 0 := by simpa using he
      simp only [Cell.data, sizeofBlock] at hdata
      omega
    simp [perform, WagtailHeap.free, List.eraseP_of_forall_not hnull]
  · obtain ⟨c, hc, hu, hdata⟩ := hmem a ha
    obtain ⟨l₁, l₂, rfl⟩ := List.append_of_mem hc
    obtain ⟨m', hfree, hm'⟩ := free_spec h
    refine ⟨⟨m', s.live.eraseP (·.pointer = a.pointer)⟩, ?_, _, hm', ?_⟩
    · rw [perform, ← hdata, hfree, Option.map_some]
    · rw [← hdata]
      exact ho.release h.toRegion hu

/-! ## All runs -/

/-- Allowed calls, all of them decisive. -/
def Good (s : State) (c : Call) : Prop := c.Allowed s ∧ c.Decisive s
  deriving Decidable

theorem Sound.step (hs : Sound lo hi s) {call : Call} (hgood : Good s call)
    (hstep : Step s call t) : Sound lo hi t := by
  cases call with
  | allocate size align =>
    obtain ⟨u, hu, hkeep, -⟩ := hs.allocate hgood.1
    obtain rfl : u = t := Option.some.inj (hu.symm.trans hstep)
    exact hkeep hgood.2
  | free memory =>
    obtain ⟨u, hu, hkeep⟩ := hs.free hgood.1
    obtain rfl : u = t := Option.some.inj (hu.symm.trans hstep)
    exact hkeep

theorem run_sound (hb : Bootable m) {calls : List Call}
    (hrun : Run (Guarded Good Step) (booted m) calls s) :
    Sound m.kernelDataEnd (initializeMm m).kernelDataspaceEnd s :=
  hrun.invariant (booted_sound hb) fun _ _ _ hs hstep => hs.step hstep.1 hstep.2

/-- Runs of decisive calls keep the block list and the live allocations well formed, and
every allowed call returns. A call that is not decisive breaks them. -/
theorem run_wellFormed (hb : Bootable m) {calls : List Call}
    (hrun : Run (Guarded Good Step) (booted m) calls s) :
    WellFormed m.kernelDataEnd (initializeMm m).kernelDataspaceEnd s ∧
      ∀ call : Call, call.Allowed s → ∃ t, Step s call t ∧
        (WellFormed m.kernelDataEnd (initializeMm m).kernelDataspaceEnd t ↔ call.Decisive s) := by
  have hs := run_sound hb hrun
  refine ⟨hs.wellFormed, ?_⟩
  intro call hallowed
  cases call with
  | allocate size align =>
    obtain ⟨t, ht, hkeep, hbreak⟩ := hs.allocate hallowed
    refine ⟨t, ht, fun hwell => ?_, fun hdec => (hkeep hdec).wellFormed⟩
    by_contra hnot
    exact hbreak hnot hwell
  | free memory =>
    obtain ⟨t, ht, hkeep⟩ := hs.free hallowed
    exact ⟨t, ht, fun _ => trivial, fun _ => hkeep.wellFormed⟩

/-- A kernel image that ends on a page boundary, with nothing allocated before. -/
def layout : Mm where
  firstBlock := 0
  header _ := ⟨0, 0, 0, false⟩
  kernelDataEnd := 0x81010000
  kernelDataspaceEnd := 0x81010000
  initializationCompleted := false

theorem layout_bootable : Bootable layout :=
  ⟨by decide, by decide, by decide, by decide⟩

/-- A call that is allowed and decisive. -/
def goodStep (s : State) (c : Call) : Option State := if Good s c then perform s c else none

theorem goodStep_step {c : Call} (h : goodStep s c = some t) : Guarded Good Step s c t := by
  rw [goodStep] at h
  split_ifs at h with hgood
  exact ⟨hgood, h⟩

/-- An allocation behind which the next one is aligned by a split, then another one in the room
of the first, and a block that merges with both of its neighbours. -/
def busyCalls : List Call :=
  [.allocate 100 4, .allocate 4096 4096, .free 0x81010010, .allocate 64 64, .free 0x81011000]

def afterBusy : State := (busyCalls.foldlM goodStep (booted layout)).get (by decide +kernel)

theorem busyCalls_run : Run (Guarded Good Step) (booted layout) busyCalls afterBusy :=
  Run.of_foldlM (fun _ _ _ => goodStep_step) (Option.some_get _).symm

theorem busyCalls_wellFormed :
    WellFormed layout.kernelDataEnd (initializeMm layout).kernelDataspaceEnd afterBusy ∧
      afterBusy.live = [⟨0x81010040, 64, 64⟩] :=
  ⟨(run_wellFormed layout_bootable busyCalls_run).1, by decide +kernel⟩

/-- All of the heap but 72 bytes at its end, which a header precedes. -/
def largeCall : Call := .allocate 4194200 4

/-- 64 bytes at the next multiple of 64, which is less than a header away. -/
def alignedCall : Call := .allocate 64 64

def afterLarge : State := (perform (booted layout) largeCall).get (by decide +kernel)
def afterAligned : State := (perform afterLarge alignedCall).get (by decide +kernel)

/-- Two allowed calls, the second of which hands out misaligned memory of an unused block. -/
theorem leftover_handed_out :
    Run (Guarded (fun s c => c.Allowed s) Step) (booted layout) [largeCall, alignedCall]
        afterAligned ∧
      afterAligned.live.head? = some ⟨0x8140ffb8, 64, 64⟩ ∧
      ¬ WellFormed layout.kernelDataEnd (initializeMm layout).kernelDataspaceEnd afterAligned := by
  have hlive : afterAligned.live.head? = some ⟨0x8140ffb8, 64, 64⟩ := by decide +kernel
  refine ⟨?_, hlive, ?_⟩
  · exact .snoc (.snoc .nil ⟨by decide +kernel, (Option.some_get _).symm⟩)
      ⟨by decide +kernel, (Option.some_get _).symm⟩
  · intro hwell
    have haligned := hwell.aligned _ (List.mem_of_mem_head? hlive)
    exact absurd haligned (by decide)

end WagtailHeap
