import Wagtail.Heap
import Wagtail.Library.FirstFit
import Wagtail.Library.Links

/-!
# Block lists in memory

A list of cells describes the headers in memory when the headers are linked in
that order and carry the sizes and flags of the cells. Splitting, merging and
flagging a block are then edits of the list, as long as the cells tile a region
of the 32-bit address space: no address computation wraps and a new header
never falls on an old one.
-/
namespace WagtailHeap

open Word (wrap sub wrap_of_lt sub_of_le)
open Links (Seg)
open FirstFit

variable {m : Mm} {lo hi : Nat} {c d : Cell} {l l₁ l₂ : List Cell}

/-- The headers in memory are the cells of `l`, linked in that order. -/
structure Represents (m : Mm) (l : List Cell) : Prop where
  first : m.firstBlock = (l.map Cell.addr).headD 0
  linked : Seg (fun a => (m.header a).next) (fun a => (m.header a).prev) 0 (l.map Cell.addr) 0
  size : ∀ c ∈ l, (m.header c.addr).size = c.size
  used : ∀ c ∈ l, (m.header c.addr).used = c.used

/-- The cells tile a region of the address space, in words. -/
structure Region (lo hi : Nat) (l : List Cell) : Prop where
  tiles : Tiles sizeofBlock lo l hi
  sized : Sized 4 l
  positive : 0 < lo
  aligned : 4 ∣ lo
  bounded : hi ≤ 2 ^ 32

/-- The heap of a running system: the cells, their region, and the finished set-up. -/
structure Heap (lo hi : Nat) (m : Mm) (l : List Cell) : Prop extends
    Represents m l, Region lo hi l where
  ready : m.initializationCompleted = true
  nonempty : l ≠ []

/-! ## Where the cells of a region lie -/

theorem Region.nodup (h : Region lo hi l) : (l.map Cell.addr).Nodup :=
  h.tiles.nodup (by decide)

theorem Region.addr_pos (h : Region lo hi l) (hc : c ∈ l) : 0 < c.addr :=
  Nat.lt_of_lt_of_le h.positive (h.tiles.bounds hc).1

theorem Region.addr_dvd (h : Region lo hi l) (hc : c ∈ l) : 4 ∣ c.addr :=
  h.tiles.dvd_addr h.sized h.aligned (by decide) hc

theorem Region.fin_le (h : Region lo hi l) (hc : c ∈ l) : c.addr + 16 + c.size ≤ 2 ^ 32 :=
  Nat.le_trans (h.tiles.bounds hc).2 h.bounded

theorem Region.size_pos (h : Region lo hi l) (hc : c ∈ l) : 0 < c.size ∧ 4 ∣ c.size :=
  h.sized c hc

/-- No header lies inside the data of a cell. -/
theorem Region.not_inside (h : Region lo hi l) (hc : c ∈ l) {a : Nat} (hlo : c.addr < a)
    (hhi : a < c.addr + 16 + c.size) : a ∉ l.map Cell.addr := by
  intro ha
  obtain ⟨d, hd, rfl⟩ := List.mem_map.mp ha
  by_cases he : c = d
  · subst he
    omega
  · have := h.tiles.apart hc hd he
    have := (h.size_pos hd).1
    simp only [Cell.fin, sizeofBlock] at *
    omega

theorem Region.replace (cs : List Cell) (h : Region lo hi (l₁ ++ c :: l₂))
    (ht : Tiles sizeofBlock c.addr cs (c.fin sizeofBlock)) (hs : Sized 4 cs) :
    Region lo hi (l₁ ++ (cs ++ l₂)) := by
  refine ⟨h.tiles.replace ht, ?_, h.positive, h.aligned, h.bounded⟩
  have hsized := h.sized
  rw [sized_append, sized_cons] at hsized
  exact sized_append.mpr ⟨hsized.1, sized_append.mpr ⟨hs, hsized.2.2⟩⟩

theorem getAddress_eq (h : Region lo hi l) (hc : c ∈ l) :
    getAddress c.addr = c.data sizeofBlock := by
  have := h.fin_le hc
  have := (h.size_pos hc).1
  rw [getAddress, wrap_of_lt (by simp only [sizeofBlock]; omega), Cell.data]

/-- The header after `c` is the next cell's, or null. -/
theorem Represents.next_eq (h : Represents m (l₁ ++ c :: l₂)) :
    (m.header c.addr).next = (l₂.map Cell.addr).headD 0 := by
  have hl := h.linked
  rw [List.map_append, List.map_cons] at hl
  exact hl.next_eq

theorem Represents.prev_eq (h : Represents m (l₁ ++ c :: l₂)) :
    (m.header c.addr).prev = Links.lastOr 0 (l₁.map Cell.addr) := by
  have hl := h.linked
  rw [List.map_append, List.map_cons] at hl
  exact hl.prev_eq

/-- Replace some cells in the middle: the others only need to keep size and flag. -/
theorem Represents.edit {m' : Mm} (cs ds : List Cell) (h : Represents m (l₁ ++ (cs ++ l₂)))
    (hfirst : m'.firstBlock = ((l₁ ++ (ds ++ l₂)).map Cell.addr).headD 0)
    (hlinked : Seg (fun a => (m'.header a).next) (fun a => (m'.header a).prev) 0
      ((l₁ ++ (ds ++ l₂)).map Cell.addr) 0)
    (hkept : ∀ d ∈ l₁ ++ l₂, (m'.header d.addr).size = (m.header d.addr).size ∧
      (m'.header d.addr).used = (m.header d.addr).used)
    (hnew : ∀ d ∈ ds, (m'.header d.addr).size = d.size ∧ (m'.header d.addr).used = d.used) :
    Represents m' (l₁ ++ (ds ++ l₂)) := by
  have hall : ∀ d ∈ l₁ ++ (ds ++ l₂),
      (m'.header d.addr).size = d.size ∧ (m'.header d.addr).used = d.used := by
    intro d hd
    simp only [List.mem_append] at hd
    rcases hd with hd | hd | hd
    · have hk := hkept d (List.mem_append_left _ hd)
      exact ⟨hk.1.trans (h.size d (by simp [hd])), hk.2.trans (h.used d (by simp [hd]))⟩
    · exact hnew d hd
    · have hk := hkept d (List.mem_append_right _ hd)
      exact ⟨hk.1.trans (h.size d (by simp [hd])), hk.2.trans (h.used d (by simp [hd]))⟩
  exact ⟨hfirst, hlinked, fun d hd => (hall d hd).1, fun d hd => (hall d hd).2⟩

/-- The other cells have other addresses. -/
theorem addr_ne_of_nodup (hnd : ((l₁ ++ c :: l₂).map Cell.addr).Nodup) (hd : d ∈ l₁ ++ l₂) :
    d.addr ≠ c.addr := by
  rw [List.map_append, List.map_cons, List.nodup_middle, List.nodup_cons, ← List.map_append] at hnd
  exact fun he => hnd.1 (he ▸ List.mem_map_of_mem hd)

/-! ## Flagging -/

@[simp] theorem setUsed_header (m : Mm) (a b : Nat) (u : Bool) :
    (m.setUsed a u).header b =
      if b = a then { m.header a with used := u } else m.header b := by
  simp only [Mm.setUsed, Function.update_apply]

theorem setUsed_represents (h : Represents m (l₁ ++ c :: l₂)) {u : Bool}
    (hnd : ((l₁ ++ c :: l₂).map Cell.addr).Nodup) :
    Represents (m.setUsed c.addr u) (l₁ ++ { c with used := u } :: l₂) := by
  have hl : (l₁ ++ { c with used := u } :: l₂).map Cell.addr = (l₁ ++ c :: l₂).map Cell.addr := by
    simp
  refine h.edit [c] [{ c with used := u }] ?_ ?_ ?_ ?_
  · simpa [Mm.setUsed] using h.first
  · simp only [List.singleton_append, hl]
    refine h.linked.congr ?_ ?_ <;>
    · intro x _
      simp only [setUsed_header]
      split
      next he => rw [he]
      next => rfl
  · intro d hd
    simp [addr_ne_of_nodup hnd hd]
  · intro d hd
    obtain rfl := List.mem_singleton.mp hd
    simpa using h.size c (by simp)

/-! ## Splitting -/

/-- The headers after a split that has room: the new one, the split one, the one behind. -/
theorem split_headers {this offset : Nat} (hroom : offset + 16 < (m.header this).size)
    (hfit : this + 16 + (m.header this).size ≤ 2 ^ 32)
    (hself : (m.header this).next ≠ this)
    (hnew : (m.header this).next ≠ this + 16 + offset) :
    split m this offset =
      (this + 16 + offset,
        { m with
          header := fun x =>
            if x = this + 16 + offset then
              ⟨this, (m.header this).next, (m.header this).size - offset - 16, false⟩
            else if x = this then
              { m.header this with next := this + 16 + offset, size := offset }
            else if x = (m.header this).next ∧ (m.header this).next ≠ 0 then
              { m.header x with prev := this + 16 + offset }
            else m.header x }) := by
  have hsub : sub (m.header this).size offset = (m.header this).size - offset :=
    sub_of_le (by omega) (by omega)
  have haddr : wrap (getAddress this + offset) = this + 16 + offset := by
    have hget : getAddress this = this + 16 := wrap_of_lt (by simp only [sizeofBlock]; omega)
    rw [hget, wrap_of_lt (by omega)]
  have hrest : sub (m.header this).size (wrap (offset + 16)) =
      (m.header this).size - offset - 16 := by
    rw [wrap_of_lt (by omega), sub_of_le (by omega) (by omega)]
    omega
  have hkeep : sub (m.header this).size (wrap ((m.header this).size - offset - 16 + 16)) =
      offset := by
    rw [wrap_of_lt (by omega), sub_of_le (by omega) (by omega)]
    omega
  have hne : this + 16 + offset ≠ this := by omega
  have hbig : ¬ (m.header this).size - offset ≤ 16 := by omega
  unfold split
  simp only [hsub, haddr, sizeofBlock, if_neg hbig, Prod.mk.injEq, true_and]
  by_cases hnull : (m.header this).next = 0
  · simp only [Mm.setNext, Mm.setPrev, Mm.setUsed, Mm.setSize, Function.update_apply, hne,
      hne.symm, hnull, if_true, if_false, ne_eq, not_true_eq_false, and_false, hrest, hkeep]
    congr 1
    funext x
    by_cases hx : x = this + 16 + offset
    · simp [hx, hne]
    · by_cases hx' : x = this <;> simp [hx, hx', hne.symm]
  · simp only [Mm.setNext, Mm.setPrev, Mm.setUsed, Mm.setSize, Function.update_apply, hne,
      hne.symm, hself, hself.symm, hnew, hnew.symm, hnull, if_true, if_false, ne_eq,
      not_false_eq_true, and_true, hrest, hkeep]
    congr 1
    funext x
    by_cases hx : x = this + 16 + offset
    · simp [hx, hne]
    · by_cases hx' : x = this
      · simp [hx', hne.symm]
      · by_cases hx'' : x = (m.header this).next
        · simp [hx'', hself, hnew]
        · simp [hx, hx', hx'']

/-- A split with room turns one cell into two. -/
theorem split_represents (offset : Nat) (h : Represents m (l₁ ++ c :: l₂))
    (hr : Region lo hi (l₁ ++ c :: l₂)) (hroom : offset + 16 < c.size) :
    ∃ m', split m c.addr offset = (c.addr + 16 + offset, m') ∧
      Represents m' (l₁ ++ ⟨c.addr, offset, c.used⟩ ::
        ⟨c.addr + 16 + offset, c.size - offset - 16, false⟩ :: l₂) ∧
      m'.initializationCompleted = m.initializationCompleted := by
  have hc : c ∈ l₁ ++ c :: l₂ := by simp
  have hsize := h.size c hc
  have hfin := hr.fin_le hc
  have hfresh := hr.not_inside hc (a := c.addr + 16 + offset) (by omega) (by omega)
  have hnd := hr.nodup
  have hpos : ∀ x ∈ (l₁ ++ c :: l₂).map Cell.addr, x ≠ 0 := by
    intro x hx
    obtain ⟨d, hd, rfl⟩ := List.mem_map.mp hx
    exact Nat.pos_iff_ne_zero.mp (hr.addr_pos hd)
  simp only [List.map_append, List.map_cons] at hnd hfresh hpos
  have hnext := h.next_eq
  have hcnot : c.addr ∉ l₁.map Cell.addr ++ l₂.map Cell.addr := by
    rw [List.nodup_middle, List.nodup_cons] at hnd
    exact hnd.1
  have hself : (m.header c.addr).next ≠ c.addr := by
    rw [hnext]
    exact Links.headD_ne (hpos _ (by simp)) (fun hx => hcnot (List.mem_append_right _ hx))
  have hnew : (m.header c.addr).next ≠ c.addr + 16 + offset := by
    rw [hnext]
    exact Links.headD_ne (by omega) (fun hx => hfresh (by simp only [List.mem_append, List.mem_cons]; tauto))
  refine ⟨_, split_headers (by omega) (by omega) hself hnew, ?_, rfl⟩
  have hself' : c.addr ≠ c.addr + 16 + offset := by omega
  have hold : ∀ d ∈ l₁ ++ l₂, d.addr ≠ c.addr ∧ d.addr ≠ c.addr + 16 + offset := by
    intro d hd
    refine ⟨addr_ne_of_nodup hr.nodup hd, fun he => hfresh ?_⟩
    rw [← he, ← List.map_cons, ← List.map_append]
    exact List.mem_map_of_mem (by simp only [List.mem_append, List.mem_cons] at hd ⊢; tauto)
  refine h.edit [c] [⟨c.addr, offset, c.used⟩,
    ⟨c.addr + 16 + offset, c.size - offset - 16, false⟩] (by simpa using h.first) ?_ ?_ ?_
  · -- the new header is linked in between the split cell and the next one
    have hlinked := h.linked
    rw [List.map_append, List.map_cons] at hlinked
    have hinserted := hlinked.insertAfter hnd hfresh fun hmem => hpos 0 (by simp [hmem]) rfl
    have hl : (l₁ ++ ([Cell.mk c.addr offset c.used,
        Cell.mk (c.addr + 16 + offset) (c.size - offset - 16) false] ++ l₂)).map Cell.addr =
        l₁.map Cell.addr ++ c.addr :: (c.addr + 16 + offset) :: l₂.map Cell.addr := by simp
    rw [hl]
    refine hinserted.congr (fun x _ => ?_) fun x _ => ?_
    · dsimp only
      split
      next => rfl
      next =>
        split
        next => rfl
        next => split <;> rfl
    · dsimp only
      split
      next => rfl
      next =>
        split
        next hx =>
          rw [hx, if_neg fun he => hself he.1.symm]
        next => split <;> rfl
  · intro d hd
    simp only [(hold d hd).1, (hold d hd).2, if_false]
    constructor <;> split <;> rfl
  · intro d hd
    simp only [List.mem_cons, List.not_mem_nil, or_false] at hd
    rcases hd with rfl | rfl
    · simpa [hself'] using h.used c hc
    · simp [hsize]

/-! ## Merging -/

/-- The headers after a merge: the first block grows, the block behind points back to it. -/
theorem merge_headers {a b : Nat} (hcont : isContiguous m a b = true) (hab : b ≠ a)
    (hfit : (m.header a).size + 16 + (m.header b).size < 2 ^ 32)
    (hnext : (m.header b).next ≠ a) :
    merge m a b =
      (a, { m with
        header := fun x =>
          if x = a then
            { m.header a with
              size := (m.header a).size + ((m.header b).size + 16)
              next := (m.header b).next }
          else if x = (m.header b).next ∧ (m.header b).next ≠ 0 then
            { m.header x with prev := a }
          else m.header x }) := by
  have hsum : wrap ((m.header a).size + wrap ((m.header b).size + 16)) =
      (m.header a).size + ((m.header b).size + 16) := by
    rw [wrap_of_lt (n := (m.header b).size + 16) (by omega), wrap_of_lt (by omega)]
  unfold merge
  simp only [hcont, Bool.not_true, Bool.false_eq_true, if_false, sizeofBlock, Mm.setSize,
    Mm.setNext, Mm.setPrev, Function.update_apply, hab, if_true, hsum, Prod.mk.injEq, true_and]
  by_cases hnull : (m.header b).next = 0
  · simp only [hnull, ne_eq, not_true_eq_false, if_false, and_false]
    congr 1
    funext x
    by_cases hx : x = a <;> simp [hx]
  · simp only [hnull, ne_eq, not_false_eq_true, if_true, and_true, hnext, if_false]
    congr 1
    funext x
    by_cases hx : x = a
    · simp [hx, hnext.symm]
    · by_cases hx' : x = (m.header b).next
      · simp [hx', hnext]
      · simp [hx, hx']

/-- Merging two neighbours turns two cells into one. -/
theorem merge_represents (h : Represents m (l₁ ++ c :: d :: l₂))
    (hr : Region lo hi (l₁ ++ c :: d :: l₂)) :
    ∃ m', merge m c.addr d.addr = (c.addr, m') ∧
      Represents m' (l₁ ++ ⟨c.addr, c.size + (d.size + 16), c.used⟩ :: l₂) ∧
      m'.initializationCompleted = m.initializationCompleted := by
  have hassoc : l₁ ++ c :: d :: l₂ = (l₁ ++ [c]) ++ d :: l₂ := by simp
  have hc : c ∈ l₁ ++ c :: d :: l₂ := by simp
  have hd : d ∈ l₁ ++ c :: d :: l₂ := by simp
  have hnd := hr.nodup
  have hpos : ∀ x ∈ (l₁ ++ c :: d :: l₂).map Cell.addr, x ≠ 0 := by
    intro x hx
    obtain ⟨e, he, rfl⟩ := List.mem_map.mp hx
    exact Nat.pos_iff_ne_zero.mp (hr.addr_pos he)
  have hnextc : (m.header c.addr).next = d.addr := by simpa using h.next_eq
  have hnext : (m.header d.addr).next = (l₂.map Cell.addr).headD 0 := by
    rw [hassoc] at h
    exact h.next_eq
  have hprev : (m.header d.addr).prev = c.addr := by
    rw [hassoc] at h
    simpa using h.prev_eq
  simp only [List.map_append, List.map_cons] at hpos
  have hold : ∀ e ∈ l₁ ++ l₂, e.addr ≠ c.addr ∧ e.addr ≠ d.addr := by
    intro e he
    refine ⟨addr_ne_of_nodup hnd ?_, addr_ne_of_nodup (hassoc ▸ hnd) ?_⟩ <;>
    · simp only [List.mem_append, List.mem_cons] at he ⊢
      tauto
  have hdc : d.addr ≠ c.addr := addr_ne_of_nodup hnd (by simp)
  have hbehind : ∀ x ∈ l₂.map Cell.addr, x ≠ c.addr := by
    intro x hx
    obtain ⟨e, he, rfl⟩ := List.mem_map.mp hx
    exact (hold e (List.mem_append_right _ he)).1
  have hna : (m.header d.addr).next ≠ c.addr := by
    rw [hnext]
    exact Links.headD_ne (hpos _ (by simp)) (fun hx => hbehind _ hx rfl)
  have hapart := hr.tiles.apart hc hd (fun he => hdc (he ▸ rfl))
  have hfin := hr.fin_le hd
  have hfin' := hr.fin_le hc
  have hcpos := hr.addr_pos hc
  have hdpos := hr.addr_pos hd
  simp only [Cell.fin, sizeofBlock] at hapart
  have hfit : (m.header c.addr).size + 16 + (m.header d.addr).size < 2 ^ 32 := by
    rw [h.size c hc, h.size d hd]
    omega
  refine ⟨_, merge_headers (by simp [isContiguous, hnextc, hprev]) hdc hfit hna, ?_, rfl⟩
  refine h.edit [c, d] [⟨c.addr, c.size + (d.size + 16), c.used⟩]
    (by simpa using h.first) ?_ ?_ ?_
  · -- the second header is linked out
    have hlinked := h.linked
    rw [List.map_append, List.map_cons, List.map_cons] at hlinked hnd
    have hremoved := hlinked.removeAfter hnd fun hmem => hpos 0 (by simp [hmem]) rfl
    have hl : (l₁ ++ ([Cell.mk c.addr (c.size + (d.size + 16)) c.used] ++ l₂)).map Cell.addr =
        l₁.map Cell.addr ++ c.addr :: l₂.map Cell.addr := by simp
    rw [hl]
    refine hremoved.congr (fun x _ => ?_) fun x _ => ?_
    · dsimp only
      split
      next => rfl
      next => split <;> rfl
    · dsimp only
      split
      next hx =>
        rw [hx, if_neg fun he => hna he.1.symm]
      next => split <;> rfl
  · intro e he
    simp only [(hold e he).1, if_false]
    constructor <;> split <;> rfl
  · intro e he
    obtain rfl := List.mem_singleton.mp he
    simpa [h.size c hc, h.size d hd] using h.used c hc

end WagtailHeap
