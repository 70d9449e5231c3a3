import Mathlib.Data.List.Nodup
import Mathlib.Data.Nat.Basic

/-!
# First-fit allocation over a tiled region

A region is cut into cells, each a header of `h` bytes followed by its data.
Placing a request carves an aligned piece out of the first cell that has one,
releasing a cell joins it with its unused neighbours. Both keep the tiling;
a placement adds one used cell and a release removes one, and nothing else
happens to the used cells.
-/
namespace FirstFit

structure Cell where
  addr : Nat
  size : Nat
  used : Bool
  deriving DecidableEq, Repr

variable {h g size align lo hi p : Nat} {b c d : Cell} {l l₁ l₂ cs : List Cell}

/-- Where the data of a cell begins. -/
def Cell.data (h : Nat) (c : Cell) : Nat := c.addr + h

/-- Where the data of a cell ends. -/
def Cell.fin (h : Nat) (c : Cell) : Nat := c.addr + h + c.size

/-- The cells lie side by side and cover `lo` to `hi`. -/
def Tiles (h : Nat) : Nat → List Cell → Nat → Prop
  | lo, [], hi => lo = hi
  | lo, c :: l, hi => c.addr = lo ∧ Tiles h (c.fin h) l hi

/-- Every cell has room, in units of `g`. -/
def Sized (g : Nat) (l : List Cell) : Prop := ∀ c ∈ l, 0 < c.size ∧ g ∣ c.size

@[simp] theorem tiles_nil : Tiles h lo [] hi ↔ lo = hi := Iff.rfl
@[simp] theorem tiles_cons : Tiles h lo (c :: l) hi ↔ c.addr = lo ∧ Tiles h (c.fin h) l hi :=
  Iff.rfl

theorem tiles_append :
    Tiles h lo (l₁ ++ l₂) hi ↔ ∃ mid, Tiles h lo l₁ mid ∧ Tiles h mid l₂ hi := by
  induction l₁ generalizing lo with
  | nil => simp
  | cons c l ih => simp [ih, and_assoc]

@[simp] theorem sized_nil : Sized g [] := by simp [Sized]
@[simp] theorem sized_cons : Sized g (c :: l) ↔ (0 < c.size ∧ g ∣ c.size) ∧ Sized g l := by
  simp [Sized]
@[simp] theorem sized_append : Sized g (l₁ ++ l₂) ↔ Sized g l₁ ∧ Sized g l₂ := by
  simp only [Sized, List.mem_append, or_imp, forall_and]
  tauto

theorem Tiles.le (ht : Tiles h lo l hi) : lo ≤ hi := by
  induction l generalizing lo with
  | nil => exact Nat.le_of_eq ht
  | cons c l ih =>
    have := ih ht.2
    have := ht.1
    simp only [Cell.fin] at *
    omega

/-- Every cell lies inside the region. -/
theorem Tiles.bounds (ht : Tiles h lo l hi) (hc : c ∈ l) : lo ≤ c.addr ∧ c.fin h ≤ hi := by
  induction l generalizing lo with
  | nil => simp at hc
  | cons d l ih =>
    obtain ⟨rfl, htl⟩ := ht
    rcases List.mem_cons.mp hc with rfl | hc
    · exact ⟨Nat.le_refl _, htl.le⟩
    · have := ih htl hc
      simp only [Cell.fin] at *
      omega

/-- Cells come in the order of their addresses. -/
theorem Tiles.sorted (ht : Tiles h lo l hi) : l.Pairwise (fun c d => c.fin h ≤ d.addr) := by
  induction l generalizing lo with
  | nil => exact .nil
  | cons c l ih => exact .cons (fun d hd => (ht.2.bounds hd).1) (ih ht.2)

theorem Tiles.nodup (ht : Tiles h lo l hi) (hh : 0 < h) : (l.map Cell.addr).Nodup := by
  rw [List.Nodup, List.pairwise_map]
  refine ht.sorted.imp ?_
  intro c d hcd
  simp only [Cell.fin] at hcd
  omega

/-- A header address belongs to one cell only. -/
theorem Tiles.addr_inj (ht : Tiles h lo l hi) (hh : 0 < h) (hc : c ∈ l) (hd : d ∈ l)
    (he : c.addr = d.addr) : c = d :=
  List.inj_on_of_nodup_map (ht.nodup hh) hc hd he

/-- Two cells of one tiling do not overlap, headers included. -/
theorem Tiles.apart (ht : Tiles h lo l hi) (hc : c ∈ l) (hd : d ∈ l) (hne : c ≠ d) :
    c.fin h ≤ d.addr ∨ d.fin h ≤ c.addr := by
  obtain ⟨l₁, l₂, rfl⟩ := List.append_of_mem hc
  have hs := ht.sorted
  rw [List.pairwise_append, List.pairwise_cons] at hs
  rcases List.mem_append.mp hd with hd | hd
  · exact Or.inr (hs.2.2 d hd c (by simp))
  · rcases List.mem_cons.mp hd with rfl | hd
    · exact absurd rfl hne
    · exact Or.inl (hs.2.1.1 d hd)

/-- Replacing a cell by cells that tile the same space keeps the tiling. -/
theorem Tiles.replace (ht : Tiles h lo (l₁ ++ c :: l₂) hi)
    (hcs : Tiles h c.addr cs (c.fin h)) : Tiles h lo (l₁ ++ (cs ++ l₂)) hi := by
  obtain ⟨mid, h₁, rfl, h₂⟩ := tiles_append.mp ht
  exact tiles_append.mpr ⟨c.addr, h₁, tiles_append.mpr ⟨c.fin h, hcs, h₂⟩⟩

/-- Sizes in units of `g` keep every header address aligned to `g`. -/
theorem Tiles.dvd_addr (ht : Tiles h lo l hi) (hs : Sized g l) (hlo : g ∣ lo) (hh : g ∣ h)
    (hc : c ∈ l) : g ∣ c.addr := by
  induction l generalizing lo with
  | nil => simp at hc
  | cons d l ih =>
    obtain ⟨rfl, htl⟩ := ht
    rcases List.mem_cons.mp hc with rfl | hc
    · exact hlo
    · refine ih htl (sized_cons.mp hs).2 ?_ hc
      exact Nat.dvd_add (Nat.dvd_add hlo hh) (sized_cons.mp hs).1.2

/-- Cells of at least `k` bytes each: there are not more than fit. -/
theorem Tiles.length_le {k : Nat} (ht : Tiles h lo l hi) (hk : ∀ c ∈ l, k ≤ h + c.size) :
    lo + l.length * k ≤ hi := by
  induction l generalizing lo with
  | nil => simpa using Nat.le_of_eq ht
  | cons c l ih =>
    obtain ⟨rfl, htl⟩ := ht
    have := ih htl (fun d hd => hk d (List.mem_cons_of_mem _ hd))
    have := hk c (by simp)
    simp only [List.length_cons, Nat.add_mul, Cell.fin] at *
    omega

/-- How far `p` is from the next multiple of `align`. -/
def gap (align p : Nat) : Nat := (p + align - 1) / align * align - p

theorem gap_spec (halign : 0 < align) : align ∣ p + gap align p ∧ gap align p < align := by
  have hdiv := Nat.div_add_mod' (p + align - 1) align
  have hmod := Nat.mod_lt (p + align - 1) halign
  have hle : p ≤ (p + align - 1) / align * align := by omega
  refine ⟨?_, by simp only [gap]; omega⟩
  rw [gap, Nat.add_sub_cancel' hle]
  exact Nat.dvd_mul_left _ _

theorem gap_eq_zero_iff (halign : 0 < align) : gap align p = 0 ↔ align ∣ p := by
  have hs := gap_spec (p := p) halign
  constructor
  · intro h0
    simpa [h0] using hs.1
  · intro hd
    exact Nat.eq_zero_of_dvd_of_lt ((Nat.dvd_add_right hd).mp hs.1) hs.2

/-- The next aligned address is the first one. -/
theorem gap_le {q : Nat} (hq : align ∣ q) (hpq : p ≤ q) (halign : 0 < align) :
    p + gap align p ≤ q := by
  obtain ⟨hdvd, hlt⟩ := gap_spec (p := p) halign
  by_contra hnot
  have hle := Nat.le_of_dvd (by omega) (Nat.dvd_sub hdvd hq)
  omega

/-- The distance to the next aligned address is in units of every `g` that divides both. -/
theorem dvd_gap (hg : g ∣ p) (halign : g ∣ align) (hpos : 0 < align) : g ∣ gap align p :=
  (Nat.dvd_add_right hg).mp (Nat.dvd_trans halign (gap_spec hpos).1)

/-- Use the front of a cell; what is left becomes a cell if a header fits in front of it. -/
def carve (h size : Nat) (c : Cell) : List Cell :=
  if size + h < c.size then
    [⟨c.addr, size, true⟩, ⟨c.addr + h + size, c.size - size - h, false⟩]
  else [⟨c.addr, c.size, true⟩]

/-- Serve a request from one cell: at its data address, or behind a front piece
that is large enough to be a cell of its own. -/
def place (h size align : Nat) (c : Cell) : Option (Nat × List Cell) :=
  if c.used = false ∧ size ≤ c.size then
    if gap align (c.data h) = 0 then some (c.data h, carve h size c)
    else if h < gap align (c.data h) ∧ gap align (c.data h) + size ≤ c.size then
      some (c.data h + gap align (c.data h),
        ⟨c.addr, gap align (c.data h) - h, false⟩ ::
          carve h size
            ⟨c.addr + gap align (c.data h), c.size - gap align (c.data h), false⟩)
    else none
  else none

/-- Serve a request from the first cell that can. -/
def firstFit (h size align : Nat) : List Cell → Option (Nat × List Cell)
  | [] => none
  | c :: l =>
    match place h size align c with
    | some (p, cs) => some (p, cs ++ l)
    | none => (firstFit h size align l).map fun r => (r.1, c :: r.2)

/-- Swallow the next cell if it is unused. -/
def absorb (h : Nat) (c : Cell) : List Cell → List Cell
  | [] => [c]
  | d :: l => if d.used then c :: d :: l else ⟨c.addr, c.size + (d.size + h), c.used⟩ :: l

/-- Give back the cell `c` between `l₁` and `l₂`, joining it with unused neighbours. -/
def release (h : Nat) (l₁ : List Cell) (c : Cell) (l₂ : List Cell) : List Cell :=
  match l₁.getLast? with
  | some b =>
    if b.used then l₁ ++ absorb h ⟨c.addr, c.size, false⟩ l₂
    else l₁.dropLast ++ absorb h ⟨b.addr, b.size + (c.size + h), false⟩ l₂
  | none => absorb h ⟨c.addr, c.size, false⟩ l₂

def usedCells (l : List Cell) : List Cell := l.filter (·.used)

@[simp] theorem usedCells_nil : usedCells [] = [] := rfl
@[simp] theorem usedCells_append : usedCells (l₁ ++ l₂) = usedCells l₁ ++ usedCells l₂ :=
  List.filter_append ..
theorem usedCells_cons_used (hc : c.used = true) : usedCells (c :: l) = c :: usedCells l := by
  simp [usedCells, hc]
theorem usedCells_cons_unused (hc : c.used = false) : usedCells (c :: l) = usedCells l := by
  simp [usedCells, hc]
theorem mem_usedCells : c ∈ usedCells l ↔ c ∈ l ∧ c.used = true := by simp [usedCells]

/-! ## Placing -/

theorem carve_tiles : Tiles h c.addr (carve h size c) (c.fin h) := by
  unfold carve
  split
  · simp only [tiles_cons, tiles_nil, Cell.fin, true_and]
    omega
  · simp [Cell.fin]

theorem carve_sized (hc : g ∣ c.size) (hg : g ∣ size) (hh : g ∣ h) (hpos : 0 < size)
    (hle : size ≤ c.size) : Sized g (carve h size c) := by
  unfold carve
  split
  · simp only [sized_cons, sized_nil, and_true]
    refine ⟨⟨hpos, hg⟩, by omega, ?_⟩
    exact Nat.dvd_sub (Nat.dvd_sub hc hg) hh
  · simp only [sized_cons, sized_nil, and_true]
    exact ⟨by omega, hc⟩

/-- Carving leaves one used cell, at the front and with room for the request. -/
theorem carve_used (hle : size ≤ c.size) : ∃ d : Cell, usedCells (carve h size c) = [d] ∧
    d.addr = c.addr ∧ d.used = true ∧ size ≤ d.size := by
  unfold carve
  split
  · exact ⟨⟨c.addr, size, true⟩, by simp [usedCells], rfl, rfl, Nat.le_refl _⟩
  · exact ⟨⟨c.addr, c.size, true⟩, by simp [usedCells], rfl, rfl, hle⟩

/-- What a placement does to the one cell it takes. -/
structure Placed (h g size align : Nat) (c : Cell) (p : Nat) (cs : List Cell) : Prop where
  unused : c.used = false
  tiles : Tiles h c.addr cs (c.fin h)
  sized : Sized g cs
  aligned : align ∣ p
  used : ∃ d : Cell, usedCells cs = [d] ∧ d.data h = p ∧ size ≤ d.size

theorem place_spec (hp : place h size align c = some (p, cs)) (halign : 0 < align)
    (hg : g ∣ c.size) (hgap : g ∣ gap align (c.data h)) (hgs : g ∣ size) (hgh : g ∣ h)
    (hpos : 0 < size) : Placed h g size align c p cs := by
  unfold place at hp
  split at hp
  next hfit =>
    split at hp
    next hzero =>
      obtain ⟨rfl, rfl⟩ := by simpa using hp
      obtain ⟨d, hd, haddr, -, hroom⟩ := carve_used (h := h) hfit.2
      exact ⟨hfit.1, carve_tiles, carve_sized hg hgs hgh hpos hfit.2,
        (gap_eq_zero_iff halign).mp hzero, d, hd, by simp [Cell.data, haddr], hroom⟩
    next hzero =>
      split at hp
      next hbehind =>
        obtain ⟨rfl, rfl⟩ := by simpa using hp
        set off := gap align (c.data h) with hoff
        have hle : size ≤ c.size - off := by omega
        obtain ⟨d, hd, haddr, -, hroom⟩ :=
          carve_used (h := h) (c := ⟨c.addr + off, c.size - off, false⟩) hle
        refine ⟨hfit.1, ?_, ?_, (gap_spec halign).1, d, ?_, ?_, hroom⟩
        · refine ⟨rfl, ?_⟩
          have ht : Tiles h (c.addr + off) (carve h size ⟨c.addr + off, c.size - off, false⟩)
              (Cell.fin h ⟨c.addr + off, c.size - off, false⟩) :=
            carve_tiles (c := ⟨c.addr + off, c.size - off, false⟩)
          have hstart : (Cell.mk c.addr (off - h) false).fin h = c.addr + off := by
            simp only [Cell.fin]; omega
          have hend : (Cell.mk (c.addr + off) (c.size - off) false).fin h = c.fin h := by
            simp only [Cell.fin]; omega
          rw [hstart, ← hend]
          exact ht
        · refine sized_cons.mpr ⟨⟨by simp only; omega, Nat.dvd_sub hgap hgh⟩, ?_⟩
          exact carve_sized (Nat.dvd_sub hg hgap) hgs hgh hpos hle
        · rw [usedCells_cons_unused rfl, hd]
        · simp only [Cell.data, haddr]
          omega
      next => simp at hp
  next => simp at hp

/-- A placement serves the request from some unused cell and leaves the others alone. -/
theorem firstFit_split (hf : firstFit h size align l = some (p, cs)) :
    ∃ l₁ c ds l₂, l = l₁ ++ c :: l₂ ∧ cs = l₁ ++ (ds ++ l₂) ∧
      place h size align c = some (p, ds) := by
  induction l generalizing cs with
  | nil => simp [firstFit] at hf
  | cons c l ih =>
    unfold firstFit at hf
    split at hf
    next q ds hplace =>
      obtain ⟨rfl, rfl⟩ := by simpa using hf
      exact ⟨[], c, ds, l, rfl, rfl, hplace⟩
    next hnone =>
      obtain ⟨⟨q, rs⟩, hrest, heq⟩ := Option.map_eq_some_iff.mp hf
      obtain ⟨rfl, rfl⟩ := by simpa using heq
      obtain ⟨l₁, d, ds, l₂, rfl, rfl, hplace⟩ := ih hrest
      exact ⟨c :: l₁, d, ds, l₂, rfl, rfl, hplace⟩

theorem firstFit_eq_none_iff :
    firstFit h size align l = none ↔ ∀ c ∈ l, place h size align c = none := by
  induction l with
  | nil => simp [firstFit]
  | cons c l ih =>
    rw [firstFit, List.forall_mem_cons, ← ih]
    split <;> simp_all

/-! ## Releasing -/

theorem absorb_tiles (ht : Tiles h lo (c :: l) hi) : Tiles h lo (absorb h c l) hi := by
  cases l with
  | nil => exact ht
  | cons d l =>
    simp only [absorb]
    split
    · exact ht
    · obtain ⟨rfl, hd, hl⟩ := ht
      refine ⟨rfl, ?_⟩
      have hfin : (Cell.mk c.addr (c.size + (d.size + h)) c.used).fin h = d.fin h := by
        simp only [Cell.fin] at *
        omega
      rwa [hfin]

theorem absorb_sized (hs : Sized g (c :: l)) (hh : g ∣ h) : Sized g (absorb h c l) := by
  cases l with
  | nil => exact hs
  | cons d l =>
    simp only [absorb]
    split
    · exact hs
    · obtain ⟨hc, hd, hl⟩ := by simpa using hs
      refine sized_cons.mpr ⟨⟨by simp only; omega, ?_⟩, hl⟩
      exact Nat.dvd_add hc.2 (Nat.dvd_add hd.2 hh)

theorem absorb_used (hc : c.used = false) : usedCells (absorb h c l) = usedCells l := by
  cases l with
  | nil => simp [absorb, usedCells, hc]
  | cons d l =>
    simp only [absorb]
    split
    · rw [usedCells_cons_unused hc]
    next hd =>
      rw [usedCells_cons_unused (by simpa using hc), usedCells_cons_unused (by simpa using hd)]

theorem release_nil : release h [] c l₂ = absorb h ⟨c.addr, c.size, false⟩ l₂ := rfl

theorem release_concat_used (hb : b.used = true) :
    release h (l₁ ++ [b]) c l₂ = l₁ ++ b :: absorb h ⟨c.addr, c.size, false⟩ l₂ := by
  simp [release, hb]

theorem release_concat_unused (hb : b.used = false) :
    release h (l₁ ++ [b]) c l₂ =
      l₁ ++ absorb h ⟨b.addr, b.size + (c.size + h), false⟩ l₂ := by
  simp [release, hb]

/-- The three shapes of a release: nothing in front, a used cell in front, or an unused one. -/
theorem release_cases {motive : List Cell → Prop} (l₁ : List Cell) (nil : motive [])
    (used : ∀ l b, b.used = true → motive (l ++ [b]))
    (unused : ∀ l b, b.used = false → motive (l ++ [b])) : motive l₁ := by
  rcases List.eq_nil_or_concat l₁ with rfl | ⟨l, b, rfl⟩
  · exact nil
  · cases hb : b.used with
    | false => simpa using unused l b hb
    | true => simpa using used l b hb

theorem release_tiles (ht : Tiles h lo (l₁ ++ c :: l₂) hi) :
    Tiles h lo (release h l₁ c l₂) hi := by
  obtain ⟨mid, h₁, h₂⟩ := tiles_append.mp ht
  induction l₁ using release_cases with
  | nil =>
    obtain rfl := tiles_nil.mp h₁
    rw [release_nil]
    exact absorb_tiles h₂
  | used l b hb =>
    rw [release_concat_used hb]
    obtain ⟨start, hl, rfl, rfl⟩ := tiles_append.mp h₁
    exact tiles_append.mpr ⟨_, hl, rfl, absorb_tiles h₂⟩
  | unused l b hb =>
    rw [release_concat_unused hb]
    obtain ⟨start, hl, rfl, rfl⟩ := tiles_append.mp h₁
    refine tiles_append.mpr ⟨_, hl, absorb_tiles ⟨rfl, ?_⟩⟩
    obtain ⟨hc, hl₂⟩ := h₂
    have hfin : (Cell.mk b.addr (b.size + (c.size + h)) false).fin h = c.fin h := by
      simp only [Cell.fin] at *
      omega
    rwa [hfin]

theorem release_sized (hs : Sized g (l₁ ++ c :: l₂)) (hh : g ∣ h) :
    Sized g (release h l₁ c l₂) := by
  induction l₁ using release_cases with
  | nil =>
    rw [release_nil]
    exact absorb_sized (by simpa using hs) hh
  | used l b hb =>
    rw [release_concat_used hb]
    simp only [sized_append, sized_cons, sized_nil, and_true] at hs
    simp only [sized_append, sized_cons]
    exact ⟨hs.1.1, hs.1.2, absorb_sized (sized_cons.mpr hs.2) hh⟩
  | unused l b hb =>
    rw [release_concat_unused hb]
    simp only [sized_append, sized_cons, sized_nil, and_true] at hs
    refine sized_append.mpr ⟨hs.1.1, absorb_sized (sized_cons.mpr ⟨⟨?_, ?_⟩, hs.2.2⟩) hh⟩
    · simp only; omega
    · exact Nat.dvd_add hs.1.2.2 (Nat.dvd_add hs.2.1.2 hh)

/-- A release takes the released cell, and no other, out of the used ones. -/
theorem release_used : usedCells (release h l₁ c l₂) = usedCells l₁ ++ usedCells l₂ := by
  induction l₁ using release_cases with
  | nil =>
    rw [release_nil, absorb_used rfl]
    rfl
  | used l b hb =>
    rw [release_concat_used hb, usedCells_append, usedCells_cons_used hb, absorb_used rfl,
      usedCells_append, usedCells_cons_used hb]
    simp
  | unused l b hb =>
    rw [release_concat_unused hb, usedCells_append, absorb_used rfl, usedCells_append,
      usedCells_cons_unused hb]
    simp

end FirstFit
