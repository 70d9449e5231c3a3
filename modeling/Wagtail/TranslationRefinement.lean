import Wagtail.Library.Runs
import Wagtail.Library.Sparse
import Wagtail.TranslationTable

/-!
# Translation tables as partial maps

Any number of translation tables share the kernel's memory for page tables. As
long as the heap keeps its promises they are one sparse table, and what the MMU
finds is a partial map from virtual to physical pages for each of them.
-/
namespace WagtailMmu

open Runs (Run)
open Sparse (Table)
open WagtailMm (Mm)

variable {ι : Type} {entries : Nat} {translate new : Nat → Nat} {m : Memory}
  {tables : ι → TranslationTable entries}

/-! ## Words -/

/-- The attributes of a page table entry. -/
def pageAttributes (permissions : Permissions) (type : IntervalType) (notGlobal : Bool) : Nat :=
  pageEntry 0 permissions type notGlobal

section

variable {physical : Nat} {permissions : Permissions} {type : IntervalType} {notGlobal : Bool}

theorem pageEntry_eq : pageEntry physical permissions type notGlobal =
    physical ||| pageAttributes permissions type notGlobal := by
  cases notGlobal <;> simp [pageEntry, pageAttributes, Nat.or_assoc]

theorem pageEntry_page : pageEntry physical permissions type notGlobal &&& 0xfffff000 =
    physical &&& 0xfffff000 := by
  have hattributes : pageAttributes permissions type notGlobal &&& 0xfffff000 = 0 := by
    cases permissions <;> cases type <;> cases notGlobal <;> decide
  rw [pageEntry_eq, Nat.and_or_distrib_right, hattributes, Nat.or_zero]

theorem pageEntry_small :
    pageEntry physical permissions type notGlobal &&& L2.typeSmallPage ≠ 0 := by
  have hattributes : pageAttributes permissions type notGlobal &&& L2.typeSmallPage = 2 := by
    cases permissions <;> cases type <;> cases notGlobal <;> decide
  rw [pageEntry_eq, Nat.and_or_distrib_right, hattributes]
  intro hzero
  exact absurd (Nat.or_eq_zero_iff.mp hzero).2 (by decide)

theorem pageEntry_ne_zero : pageEntry physical permissions type notGlobal ≠ 0 := by
  intro hzero
  have hsmall : pageEntry physical permissions type notGlobal &&& L2.typeSmallPage ≠ 0 :=
    pageEntry_small
  rw [hzero] at hsmall
  exact hsmall (Nat.zero_and _)

end

/-- A page-aligned word is its own page. -/
theorem and_page {page : Nat} (hpage : page % 4096 = 0) (hlt : page < 2 ^ 32) :
    page &&& 0xfffff000 = page := Word.and_high_of_aligned (k := 12) hlt (by decide) hpage

/-- The first-level entry of an aligned page table. -/
theorem tableEntry {physical : Nat} (haligned : physical % 1024 = 0) (hlt : physical < 2 ^ 32) :
    (physical ||| L1.typePageTable) &&& 0xfffffc00 = physical ∧
    (physical ||| L1.typePageTable) &&& 0b11 = L1.typePageTable ∧
    (physical ||| L1.typePageTable) &&& L1.typePageTable ≠ 0 := by
  have hmask : physical &&& 0xfffffc00 = physical :=
    Word.and_high_of_aligned (k := 10) hlt (by decide) haligned
  have hlow : physical &&& 3 = physical % 4 := Nat.and_two_pow_sub_one_eq_mod physical 2
  have htwo : physical &&& 3 = 0 := by omega
  simp [Nat.and_or_distrib_right, L1.typePageTable, hmask, htwo]

/-- Two addresses are in one page exactly if their indices are the same. -/
theorem page_eq_iff (v w : Nat) :
    v / 4096 = w / 4096 ↔ v >>> 20 = w >>> 20 ∧ ptIndex v = ptIndex w := by
  have hv := Nat.and_two_pow_sub_one_eq_mod v 20
  have hw := Nat.and_two_pow_sub_one_eq_mod w 20
  simp only [Nat.reducePow, Nat.reduceSub] at hv hw
  simp only [ptIndex, Fin.mk.injEq, hv, hw, Nat.shiftRight_eq_div_pow]
  omega

/-! ## The heap -/

/-- Page tables are aligned, and the physical addresses of different ones differ. -/
structure HeapPages (translate new : Nat → Nat) : Prop where
  aligned : ∀ n, new n % 1024 = 0
  distinct : ∀ m n, virtualToPhysical translate (new m) = virtualToPhysical translate (new n) →
    new m = new n

theorem virtualToPhysical_lt (virt : Nat) : virtualToPhysical translate virt < 2 ^ 32 := by
  have hpage : translate (virt &&& 0xfffff000) &&& 0xfffff000 ≤ 0xfffff000 := Nat.and_le_right
  have hoffset : virt &&& 0xfff ≤ 0xfff := Nat.and_le_right
  unfold virtualToPhysical
  omega

theorem HeapPages.physical_aligned (heap : HeapPages translate new) (n : Nat) :
    virtualToPhysical translate (new n) % 1024 = 0 := by
  have haligned := heap.aligned n
  have hoffset := Nat.and_two_pow_sub_one_eq_mod (new n) 12
  have hpage : translate (new n &&& 0xfffff000) &&& 0xfffff000 =
      ((translate (new n &&& 0xfffff000) % 2 ^ 32) &&& 0xfffff000) := by
    rw [← Nat.and_two_pow_sub_one_eq_mod, Nat.and_assoc]
    rfl
  have hmask := Word.and_high_mask (k := 12)
    (Nat.mod_lt (translate (new n &&& 0xfffff000)) (y := 2 ^ 32) (by decide)) (by decide)
  have hmask : ((translate (new n &&& 0xfffff000) % 2 ^ 32) &&& 0xfffff000) = _ := hmask
  simp only [Nat.reducePow, Nat.reduceSub] at hoffset
  unfold virtualToPhysical
  rw [hpage, hmask, hoffset]
  omega

/-! ## The sparse table -/

def PageTable.leaf (pt : PageTable) : Fin 256 → Option Nat :=
  fun k => if pt k = 0 then none else some (pt k)

/-- All translation tables together. -/
def rows (tables : ι → TranslationTable entries) (m : Memory) :
    Table (ι × Fin entries) Nat (Fin 256) Nat where
  row x := if (tables x.1).table x.2 = 0 then none else some ((tables x.1).table x.2 &&& 0xfffffc00)
  leaf r := (m.pageTables r).map PageTable.leaf

theorem row_eq_none {x : ι × Fin entries} :
    (rows tables m).row x = none ↔ (tables x.1).table x.2 = 0 := by
  simp [rows]

theorem row_eq_some {x : ι × Fin entries} {physical : Nat} :
    (rows tables m).row x = some physical ↔
      (tables x.1).table x.2 ≠ 0 ∧ (tables x.1).table x.2 &&& 0xfffffc00 = physical := by
  simp [rows]

/-- Every entry that is not zero is one of a small page. -/
def PageTable.Valid (pt : PageTable) : Prop := ∀ k, pt k = 0 ∨ pt k &&& L2.typeSmallPage ≠ 0

theorem PageTable.Valid.update {pt : PageTable} (h : pt.Valid) (k : Fin 256) {entry : Nat}
    (hentry : entry = 0 ∨ entry &&& L2.typeSmallPage ≠ 0) :
    PageTable.Valid (Function.update pt k entry) := by
  intro l
  by_cases hl : l = k
  · subst hl
    rwa [Function.update_self]
  · rw [Function.update_of_ne hl]
    exact h l

/-- The tables are tidy, every entry has the form that the code gives it and the directories
answer. -/
structure Sound (translate new : Nat → Nat) (tables : ι → TranslationTable entries) (m : Memory) :
    Prop where
  tidy : (rows tables m).Tidy
  entry : ∀ p i, (tables p).table i = 0 ∨ ∃ n,
    (tables p).table i = virtualToPhysical translate (new n) ||| L1.typePageTable ∧
    (tables p).directory.getValue (virtualToPhysical translate (new n)) = some (new n)
  directory : ∀ p physical pt, (tables p).directory.getValue physical = some pt →
    ∃ n, pt = new n ∧ physical = virtualToPhysical translate (new n)
  valid : ∀ r pt, m.pageTables r = some pt → pt.Valid

theorem Rbtree.getValue_insert (t : Rbtree) (key data k : Nat) :
    (t.insert key data).getValue k = (t.getValue k).or (if k = key then some data else none) := by
  unfold insert getValue
  rw [List.lookup_append]
  by_cases hk : k = key
  · subst hk
    simp
  · have hbeq : (k == key) = false := by simpa using hk
    simp [List.lookup_cons, hbeq, hk]

theorem rows_write {pt : Nat} {table : PageTable} :
    rows tables (m.write translate pt table) =
      (rows tables m).put (virtualToPhysical translate pt) table.leaf := by
  apply Table.ext
  · rfl
  · funext r
    by_cases hr : r = virtualToPhysical translate pt
    · subst hr
      simp [rows, Memory.write, Table.put]
    · simp [rows, Memory.write, Table.put, hr]

variable [DecidableEq ι]

theorem rows_add {p : ι} {i : Fin entries} {pt : Nat} {table : PageTable} {directory : Rbtree}
    (haligned : virtualToPhysical translate pt % 1024 = 0) :
    rows (Function.update tables p ⟨Function.update (tables p).table i
        (virtualToPhysical translate pt ||| L1.typePageTable), directory⟩)
        (m.write translate pt table) =
      (rows tables m).add (p, i) (virtualToPhysical translate pt) table.leaf := by
  obtain ⟨hmask, -, hpresent⟩ := tableEntry haligned (virtualToPhysical_lt pt)
  have hne : virtualToPhysical translate pt ||| L1.typePageTable ≠ 0 := by
    intro hzero
    rw [hzero] at hpresent
    exact hpresent (Nat.zero_and _)
  apply Table.ext
  · funext ⟨q, j⟩
    by_cases hq : q = p
    · subst hq
      by_cases hj : j = i
      · subst hj
        simp [rows, Table.add, hmask, hne]
      · simp [rows, Table.add, hj]
    · simp [rows, Table.add, hq]
  · have hwrite : rows tables (m.write translate pt table) =
        (rows tables m).put (virtualToPhysical translate pt) table.leaf := rows_write
    have hleaf := congrArg Table.leaf hwrite
    exact hleaf

theorem rows_drop {p : ι} {i : Fin entries} {pt : Nat} :
    rows (Function.update tables p { tables p with table := Function.update (tables p).table i 0 })
        (m.delete translate pt) =
      (rows tables m).drop (p, i) (virtualToPhysical translate pt) := by
  apply Table.ext
  · funext ⟨q, j⟩
    by_cases hq : q = p
    · subst hq
      by_cases hj : j = i
      · subst hj
        simp [rows, Table.drop]
      · simp [rows, Table.drop, hj]
    · simp [rows, Table.drop, hq]
  · funext r
    by_cases hr : r = virtualToPhysical translate pt
    · subst hr
      simp [rows, Memory.delete, Table.drop]
    · simp [rows, Memory.delete, Table.drop, hr]

/-! ## What the MMU finds -/

theorem PageTable.leaf_update (pt : PageTable) (k : Fin 256) {entry : Nat} (hne : entry ≠ 0) :
    PageTable.leaf (Function.update pt k entry) = Function.update pt.leaf k (some entry) := by
  funext l
  by_cases hl : l = k
  · subst hl
    simp [leaf, hne]
  · simp [leaf, hl]

theorem PageTable.leaf_clear (pt : PageTable) (k : Fin 256) :
    PageTable.leaf (Function.update pt k 0) = Function.update pt.leaf k none := by
  funext l
  by_cases hl : l = k
  · subst hl
    simp [leaf]
  · simp [leaf, hl]

theorem PageTable.isEmpty_iff (pt : PageTable) : pt.isEmpty = true ↔ ∀ k, pt.leaf k = none := by
  simp [isEmpty, leaf]

omit [DecidableEq ι] in
/-- An entry that is not zero refers to a live page table, which the directory knows. -/
theorem Sound.present (heap : HeapPages translate new) (h : Sound translate new tables m)
    {p : ι} {i : Fin entries} (hne : (tables p).table i ≠ 0) :
    ∃ n pt, (rows tables m).row (p, i) = some (virtualToPhysical translate (new n)) ∧
      (tables p).pageTable i = new n ∧
      (tables p).table i = virtualToPhysical translate (new n) ||| L1.typePageTable ∧
      m.pageTables (virtualToPhysical translate (new n)) = some pt ∧ ∃ k, pt.leaf k ≠ none := by
  obtain ⟨n, hentry, hvalue⟩ := (h.entry p i).resolve_left hne
  obtain ⟨hmask, -, -⟩ := tableEntry (heap.physical_aligned n) (virtualToPhysical_lt (new n))
  have hrow : (rows tables m).row (p, i) = some (virtualToPhysical translate (new n)) := by
    change (if (tables p).table i = 0 then none else some ((tables p).table i &&& _)) = _
    rw [if_neg hne, hentry, hmask]
  obtain ⟨leaf, hleaf, hk⟩ := h.tidy.live (p, i) _ hrow
  obtain ⟨pt, hpt, rfl⟩ := Option.map_eq_some_iff.mp hleaf
  refine ⟨n, pt, hrow, ?_, hentry, hpt, hk⟩
  rw [TranslationTable.pageTable, hentry, hmask, hvalue, Option.getD_some]

omit [DecidableEq ι] in
/-- What the MMU finds is an entry of the sparse table. -/
theorem Sound.descriptor_eq (heap : HeapPages translate new) (h : Sound translate new tables m)
    (p : ι) (virt : Nat) : descriptor m (tables p) virt =
      if hv : virt >>> 20 < entries then
        (rows tables m).lookup (p, ⟨virt >>> 20, hv⟩) (ptIndex virt)
      else none := by
  unfold descriptor
  by_cases hv : virt >>> 20 < entries
  · rw [dif_pos hv, dif_pos hv]
    by_cases hzero : (tables p).table ⟨virt >>> 20, hv⟩ = 0
    · have hrow : (rows tables m).row (p, ⟨virt >>> 20, hv⟩) = none := row_eq_none.mpr hzero
      rw [Table.lookup_of_none hrow, hzero]
      exact if_neg (by decide)
    · obtain ⟨n, pt, hrow, -, hentry, hpt, -⟩ := h.present heap hzero
      obtain ⟨hmask, htype, -⟩ :=
        tableEntry (heap.physical_aligned n) (virtualToPhysical_lt (new n))
      have hleaf : (rows tables m).leaf (virtualToPhysical translate (new n)) = some pt.leaf := by
        simp [rows, hpt]
      simp only [Table.lookup_of_leaf hrow hleaf, hentry, hmask, htype, if_true, hpt,
        Option.bind_some, PageTable.leaf]
      cases h.valid _ pt hpt (ptIndex virt) with
      | inl hnone => simp [hnone]
      | inr hsmall =>
        have hne : pt (ptIndex virt) ≠ 0 := by
          intro hnone
          rw [hnone] at hsmall
          exact hsmall (Nat.zero_and _)
        rw [if_pos hsmall, if_neg hne]
  · rw [dif_neg hv, dif_neg hv]

omit [DecidableEq ι] in
/-- The addresses of a page are translated alike. -/
theorem Sound.walk_page (heap : HeapPages translate new) (h : Sound translate new tables m) {p : ι}
    {v v' : Nat} (hpage : v / 4096 = v' / 4096) :
    walk m (tables p) v = walk m (tables p) v' := by
  obtain ⟨hindex, hpt⟩ := (page_eq_iff v v').mp hpage
  unfold walk
  rw [h.descriptor_eq heap, h.descriptor_eq heap]
  simp only [hindex, hpt]

/-- One entry of the sparse table changes: the MMU finds something else in one page of one
table. -/
theorem Sound.descriptor_update {tables' : ι → TranslationTable entries} {m' : Memory} {p : ι}
    {virt : Nat} {e : Option Nat} (heap : HeapPages translate new)
    (h : Sound translate new tables m) (h' : Sound translate new tables' m')
    (hv : virt >>> 20 < entries)
    (hlookup : ∀ x k, (rows tables' m').lookup x k =
      if x = (p, ⟨virt >>> 20, hv⟩) ∧ k = ptIndex virt then e else (rows tables m).lookup x k)
    (q : ι) (v : Nat) : descriptor m' (tables' q) v =
      if q = p ∧ v / 4096 = virt / 4096 then e else descriptor m (tables q) v := by
  rw [h'.descriptor_eq heap, h.descriptor_eq heap]
  simp only [hlookup, Prod.mk.injEq, Fin.mk.injEq, page_eq_iff]
  by_cases hsame : v >>> 20 = virt >>> 20
  · rw [dif_pos (hsame ▸ hv), dif_pos (hsame ▸ hv)]
    simp only [hsame, and_true, true_and]
  · simp only [hsame, false_and, and_false, if_false]

/-! ## Mapping -/

section

variable {t : TranslationTable entries} {page virt : Nat} {permissions : Permissions}
  {type : IntervalType} {notGlobal : Bool} {pt : PageTable}

theorem mapPage_present (hv : virt >>> 20 < entries)
    (htype : t.table ⟨virt >>> 20, hv⟩ &&& L1.typePageTable ≠ 0)
    (hpt : m.pageTables (virtualToPhysical translate (t.pageTable ⟨virt >>> 20, hv⟩)) = some pt) :
    mapPage translate new m t page virt permissions type notGlobal =
      .ok (m.write translate (t.pageTable ⟨virt >>> 20, hv⟩)
        (pt.addEntry (ptIndex virt) page permissions type notGlobal), t) := by
  simp [mapPage, hv, htype, Memory.read, hpt, bind, Except.bind]

theorem mapPage_new (hv : virt >>> 20 < entries) (hzero : t.table ⟨virt >>> 20, hv⟩ = 0)
    (hfree : m.pageTables (virtualToPhysical translate (new m.allocations)) = none) :
    mapPage translate new m t page virt permissions type notGlobal =
      .ok ({ m.write translate (new m.allocations)
          (PageTable.zeroed.addEntry (ptIndex virt) page permissions type notGlobal) with
          allocations := m.allocations + 1 },
        ⟨Function.update t.table ⟨virt >>> 20, hv⟩
            (virtualToPhysical translate (new m.allocations) ||| L1.typePageTable),
          t.directory.insert (virtualToPhysical translate (new m.allocations))
            (new m.allocations)⟩) := by
  simp [mapPage, hv, hzero, Memory.newPageTable, hfree, Memory.read, Memory.write, bind,
    Except.bind]

theorem mapPage_full (hv : virt >>> 20 < entries) (hzero : t.table ⟨virt >>> 20, hv⟩ = 0)
    (hfull : m.pageTables (virtualToPhysical translate (new m.allocations)) = some pt) :
    mapPage translate new m t page virt permissions type notGlobal = .error .allocation := by
  simp [mapPage, hv, hzero, Memory.newPageTable, hfull, bind, Except.bind]

end

omit [DecidableEq ι] in
theorem Sound.congr {m' : Memory} (h : Sound translate new tables m)
    (hpt : m'.pageTables = m.pageTables) : Sound translate new tables m' := by
  have hrows : rows tables m' = rows tables m := by
    simp only [rows, hpt]
  exact ⟨hrows ▸ h.tidy, h.entry, h.directory, fun r pt hr => h.valid r pt (hpt ▸ hr)⟩

omit [DecidableEq ι] in
theorem Sound.valid_write {pt r : Nat} {table other : PageTable}
    (h : Sound translate new tables m) (hvalid : table.Valid)
    (hother : (m.write translate pt table).pageTables r = some other) : other.Valid := by
  simp only [Memory.write, Function.update_apply] at hother
  split_ifs at hother with hr
  · obtain rfl := Option.some.inj hother
    exact hvalid
  · exact h.valid r other hother

omit [DecidableEq ι] in
theorem Sound.write {p : ι} {i : Fin entries} {pt : Nat} {table : PageTable}
    (h : Sound translate new tables m)
    (hrow : (rows tables m).row (p, i) = some (virtualToPhysical translate pt))
    (hvalid : table.Valid) (hleaf : ∃ k, table.leaf k ≠ none) :
    Sound translate new tables (m.write translate pt table) where
  tidy := by
    rw [rows_write]
    exact h.tidy.put hrow hleaf
  entry := h.entry
  directory := h.directory
  valid := fun _ _ hother => h.valid_write hvalid hother

theorem Sound.add {p : ι} {i : Fin entries} {n : Nat} {table : PageTable}
    (heap : HeapPages translate new) (h : Sound translate new tables m)
    (hzero : (tables p).table i = 0)
    (hfree : m.pageTables (virtualToPhysical translate (new n)) = none)
    (hvalid : table.Valid) (hleaf : ∃ k, table.leaf k ≠ none) :
    Sound translate new (Function.update tables p ⟨Function.update (tables p).table i
        (virtualToPhysical translate (new n) ||| L1.typePageTable),
      (tables p).directory.insert (virtualToPhysical translate (new n)) (new n)⟩)
      (m.write translate (new n) table) := by
  have hrow : (rows tables m).row (p, i) = none := row_eq_none.mpr hzero
  have hnone : (rows tables m).leaf (virtualToPhysical translate (new n)) = none := by
    simp [rows, hfree]
  -- the directory answers the older of two entries, which are the same
  have hnew : ((tables p).directory.insert (virtualToPhysical translate (new n)) (new n)).getValue
      (virtualToPhysical translate (new n)) = some (new n) := by
    rw [Rbtree.getValue_insert, if_pos rfl]
    cases hvalue : (tables p).directory.getValue (virtualToPhysical translate (new n)) with
    | none => rfl
    | some pt =>
      obtain ⟨k, rfl, hk⟩ := h.directory p _ pt hvalue
      rw [Option.some_or, heap.distinct k n hk.symm]
  constructor
  · rw [rows_add (heap.physical_aligned n)]
    exact h.tidy.add hrow hnone hleaf
  · intro q j
    by_cases hq : q = p
    · subst hq
      rw [Function.update_self]
      by_cases hj : j = i
      · subst hj
        exact .inr ⟨n, Function.update_self .., hnew⟩
      · refine (h.entry q j).imp (fun hz => (Function.update_of_ne hj ..).trans hz) ?_
        rintro ⟨k, hk, hvalue⟩
        refine ⟨k, (Function.update_of_ne hj ..).trans hk, ?_⟩
        rw [Rbtree.getValue_insert, hvalue, Option.some_or]
    · rw [Function.update_of_ne hq]
      exact h.entry q j
  · intro q physical pt hvalue
    by_cases hq : q = p
    · subst hq
      rw [Function.update_self, Rbtree.getValue_insert, Option.or_eq_some_iff] at hvalue
      obtain hvalue | ⟨-, hvalue⟩ := hvalue
      · exact h.directory q physical pt hvalue
      · split_ifs at hvalue with hphysical
        exact ⟨n, (Option.some.inj hvalue).symm, hphysical⟩
    · rw [Function.update_of_ne hq] at hvalue
      exact h.directory q physical pt hvalue
  · exact fun _ _ hother => h.valid_write hvalid hother

theorem Sound.drop {p : ι} {i : Fin entries} {pt : Nat} (h : Sound translate new tables m)
    (hrow : (rows tables m).row (p, i) = some (virtualToPhysical translate pt)) :
    Sound translate new
      (Function.update tables p { tables p with table := Function.update (tables p).table i 0 })
      (m.delete translate pt) where
  tidy := by
    rw [rows_drop]
    exact h.tidy.drop hrow
  entry := by
    intro q j
    by_cases hq : q = p
    · subst hq
      rw [Function.update_self]
      by_cases hj : j = i
      · subst hj
        exact .inl (Function.update_self ..)
      · have hother : Function.update (tables q).table i 0 j = (tables q).table j :=
          Function.update_of_ne hj ..
        change Function.update (tables q).table i 0 j = 0 ∨ ∃ n, Function.update _ i 0 j = _ ∧ _
        rw [hother]
        exact h.entry q j
    · rw [Function.update_of_ne hq]
      exact h.entry q j
  directory := by
    intro q physical pt hvalue
    by_cases hq : q = p
    · subst hq
      rw [Function.update_self] at hvalue
      exact h.directory q physical pt hvalue
    · rw [Function.update_of_ne hq] at hvalue
      exact h.directory q physical pt hvalue
  valid := by
    intro r other hother
    simp only [Memory.delete, Function.update_apply] at hother
    split_ifs at hother with hr
    exact h.valid r other hother

/-- A page table that is written with one other entry. -/
theorem Sound.lookup_write {p : ι} {i : Fin entries} {k : Fin 256} {pt : Nat}
    {old table : PageTable} {j : Fin 256} {e : Option Nat} {x : ι × Fin entries}
    (h : Sound translate new tables m)
    (hrow : (rows tables m).row (p, i) = some (virtualToPhysical translate pt))
    (hold : (rows tables m).leaf (virtualToPhysical translate pt) = some old.leaf)
    (hleaf : table.leaf = Function.update old.leaf j e) :
    (rows tables (m.write translate pt table)).lookup x k =
      if x = (p, i) ∧ k = j then e else (rows tables m).lookup x k := by
  rw [rows_write, h.tidy.lookup_put hrow, hleaf]
  by_cases hx : x = (p, i)
  · subst hx
    rw [Table.lookup_of_leaf hrow hold, if_pos rfl, Function.update_apply]
    simp only [true_and]
  · simp only [hx, false_and, if_false]

/-- What `map_page` does: the MMU finds the page from now on, and everything else as before. -/
structure Maps (translate new : Nat → Nat) (tables : ι → TranslationTable entries) (m : Memory)
    (p : ι) (virt entry : Nat) (m' : Memory) (t' : TranslationTable entries) : Prop where
  sound : Sound translate new (Function.update tables p t') m'
  mm : m'.mm = m.mm
  descriptor : ∀ q v, descriptor m' (Function.update tables p t' q) v =
    if q = p ∧ v / 4096 = virt / 4096 then some entry else descriptor m (tables q) v
  kept : ∀ q i, (tables q).table i ≠ 0 →
    (Function.update tables p t' q).table i = (tables q).table i

/-- The page table of the entry is there. -/
theorem Sound.maps_present {virt page : Nat} {permissions : Permissions} {type : IntervalType}
    {notGlobal : Bool} (heap : HeapPages translate new) (h : Sound translate new tables m) (p : ι)
    (hv : virt >>> 20 < entries) (hne : (tables p).table ⟨virt >>> 20, hv⟩ ≠ 0) :
    ∃ m' t', mapPage translate new m (tables p) page virt permissions type notGlobal =
      .ok (m', t') ∧
      Maps translate new tables m p virt (pageEntry page permissions type notGlobal) m' t' := by
  obtain ⟨n, pt, hrow, hpt, hentry, hlive, -⟩ := h.present heap hne
  obtain ⟨-, -, hpresent⟩ := tableEntry (heap.physical_aligned n) (virtualToPhysical_lt (new n))
  have hleaf : PageTable.leaf (pt.addEntry (ptIndex virt) page permissions type notGlobal) =
      Function.update pt.leaf (ptIndex virt) (some (pageEntry page permissions type notGlobal)) :=
    PageTable.leaf_update _ _ pageEntry_ne_zero
  have hold : (rows tables m).leaf (virtualToPhysical translate (new n)) = some pt.leaf := by
    simp [rows, hlive]
  have hsound : Sound translate new tables (m.write translate (new n)
      (pt.addEntry (ptIndex virt) page permissions type notGlobal)) :=
    h.write hrow ((h.valid _ pt hlive).update _ (.inr pageEntry_small))
      ⟨ptIndex virt, by simp [hleaf]⟩
  refine ⟨_, _, mapPage_present hv (hentry ▸ hpresent) (hpt ▸ hlive), ?_⟩
  rw [hpt]
  constructor
  · rw [Function.update_eq_self]
    exact hsound
  · rfl
  · rw [Function.update_eq_self]
    refine h.descriptor_update heap hsound hv fun x k => ?_
    exact h.lookup_write hrow hold hleaf
  · rw [Function.update_eq_self]
    exact fun q i _ => rfl

/-- The entry gets a page table. -/
theorem Sound.maps_new {virt page : Nat} {permissions : Permissions} {type : IntervalType}
    {notGlobal : Bool} (heap : HeapPages translate new) (h : Sound translate new tables m) (p : ι)
    (hv : virt >>> 20 < entries) (hzero : (tables p).table ⟨virt >>> 20, hv⟩ = 0)
    (hfree : m.pageTables (virtualToPhysical translate (new m.allocations)) = none) :
    ∃ m' t', mapPage translate new m (tables p) page virt permissions type notGlobal =
      .ok (m', t') ∧
      Maps translate new tables m p virt (pageEntry page permissions type notGlobal) m' t' := by
  have hleaf : PageTable.leaf (PageTable.zeroed.addEntry (ptIndex virt) page permissions type
      notGlobal) = Function.update PageTable.zeroed.leaf (ptIndex virt)
        (some (pageEntry page permissions type notGlobal)) :=
    PageTable.leaf_update _ _ pageEntry_ne_zero
  have hvalid : PageTable.Valid (PageTable.zeroed.addEntry (ptIndex virt) page permissions type
      notGlobal) := PageTable.Valid.update (fun _ => .inl rfl) _ (.inr pageEntry_small)
  have hrow : (rows tables m).row (p, ⟨virt >>> 20, hv⟩) = none := row_eq_none.mpr hzero
  have hnone : (rows tables m).leaf (virtualToPhysical translate (new m.allocations)) = none := by
    simp [rows, hfree]
  have hsound : Sound translate new _ { m.write translate (new m.allocations)
      (PageTable.zeroed.addEntry (ptIndex virt) page permissions type notGlobal) with
      allocations := m.allocations + 1 } :=
    (h.add heap hzero hfree hvalid ⟨ptIndex virt, by simp [hleaf]⟩).congr rfl
  refine ⟨_, _, mapPage_new hv hzero hfree, hsound, rfl, ?_, fun q i hne => ?_⟩
  · refine h.descriptor_update heap hsound hv fun x k => ?_
    change (rows _ (m.write translate (new m.allocations) _)).lookup x k = _
    rw [rows_add (heap.physical_aligned _), h.tidy.lookup_add hnone, hleaf]
    by_cases hx : x = (p, ⟨virt >>> 20, hv⟩)
    · subst hx
      rw [Table.lookup_of_none hrow, if_pos rfl, Function.update_apply]
      simp [PageTable.leaf, PageTable.zeroed]
    · simp only [hx, false_and, if_false]
  · by_cases hq : q = p
    · subst hq
      have hi : i ≠ ⟨virt >>> 20, hv⟩ := fun hi => hne (hi ▸ hzero)
      rw [Function.update_self]
      exact Function.update_of_ne hi ..
    · rw [Function.update_of_ne hq]

/-- `map_page` fails only if the heap hands out a page table that is in use. -/
theorem Sound.maps {virt : Nat} (heap : HeapPages translate new)
    (h : Sound translate new tables m) (p : ι) (hv : virt >>> 20 < entries) (page : Nat)
    (permissions : Permissions) (type : IntervalType) (notGlobal : Bool) :
    (∃ m' t', mapPage translate new m (tables p) page virt permissions type notGlobal =
      .ok (m', t') ∧
      Maps translate new tables m p virt (pageEntry page permissions type notGlobal) m' t') ∨
    mapPage translate new m (tables p) page virt permissions type notGlobal = .error .allocation ∧
      m.pageTables (virtualToPhysical translate (new m.allocations)) ≠ none := by
  by_cases hzero : (tables p).table ⟨virt >>> 20, hv⟩ = 0
  · cases hfree : m.pageTables (virtualToPhysical translate (new m.allocations)) with
    | none => exact .inl (h.maps_new heap p hv hzero hfree)
    | some pt => exact .inr ⟨mapPage_full hv hzero hfree, nofun⟩
  · exact .inl (h.maps_present heap p hv hzero)

/-! ## Unmapping -/

/-- What `unmap_page` does: the MMU finds nothing from now on, and everything else as before, and
the page goes back to the allocator unless its address is null. -/
structure Unmaps (translate new : Nat → Nat) (tables : ι → TranslationTable entries) (m : Memory)
    (p : ι) (virt : Nat) (m' : Memory) (t' : TranslationTable entries) : Prop where
  sound : Sound translate new (Function.update tables p t') m'
  mm : m'.mm = if (walk m (tables p) virt).getD 0 = 0 then m.mm
    else m.mm.freePage ((walk m (tables p) virt).getD 0)
  descriptor : ∀ q v, descriptor m' (Function.update tables p t' q) v =
    if q = p ∧ v / 4096 = virt / 4096 then none else descriptor m (tables q) v
  kept : ∀ q i, (Function.update tables p t' q).table i = (tables q).table i ∨
    (Function.update tables p t' q).table i = 0

theorem Sound.unmaps_none {virt : Nat} (heap : HeapPages translate new)
    (h : Sound translate new tables m) (p : ι) (hv : virt >>> 20 < entries)
    (hzero : (tables p).table ⟨virt >>> 20, hv⟩ = 0) :
    ∃ m' t', unmapPage translate m (tables p) virt = .ok (m', t') ∧
      Unmaps translate new tables m p virt m' t' := by
  have hrow : (rows tables m).row (p, ⟨virt >>> 20, hv⟩) = none := row_eq_none.mpr hzero
  have hnone : descriptor m (tables p) virt = none := by
    rw [h.descriptor_eq heap, dif_pos hv, Table.lookup_of_none hrow]
  refine ⟨m, tables p, by simp [unmapPage, hv, hzero], ?_⟩
  constructor
  · rwa [Function.update_eq_self]
  · simp [walk, hnone]
  · rw [Function.update_eq_self]
    refine h.descriptor_update heap h hv fun x k => ?_
    split_ifs with hx
    · rw [hx.1, Table.lookup_of_none hrow]
    · rfl
  · rw [Function.update_eq_self]
    exact fun q i => .inl rfl

/-- `unmap_page` of an entry that has a page table: the table is freed if it is empty then. -/
theorem unmapPage_present {t : TranslationTable entries} {virt : Nat} {pt : PageTable}
    (hv : virt >>> 20 < entries)
    (htype : t.table ⟨virt >>> 20, hv⟩ &&& L1.typePageTable ≠ 0)
    (hpt : m.pageTables (virtualToPhysical translate (t.pageTable ⟨virt >>> 20, hv⟩)) = some pt) :
    unmapPage translate m t virt = .ok
      (if PageTable.isEmpty (Function.update pt (ptIndex virt) 0) then
        ({ m.delete translate (t.pageTable ⟨virt >>> 20, hv⟩) with
            mm := if pt (ptIndex virt) &&& 0xfffff000 = 0 then m.mm
              else m.mm.freePage (pt (ptIndex virt) &&& 0xfffff000) },
          { t with table := Function.update t.table ⟨virt >>> 20, hv⟩ 0 })
      else
        ({ m.write translate (t.pageTable ⟨virt >>> 20, hv⟩)
            (Function.update pt (ptIndex virt) 0) with
            mm := if pt (ptIndex virt) &&& 0xfffff000 = 0 then m.mm
              else m.mm.freePage (pt (ptIndex virt) &&& 0xfffff000) }, t)) := by
  by_cases hfreed : pt (ptIndex virt) &&& 0xfffff000 = 0 <;>
    by_cases hempty : PageTable.isEmpty (Function.update pt (ptIndex virt) 0) = true <;>
    simp [unmapPage, hv, htype, Memory.read, hpt, PageTable.removeEntry, hfreed, hempty, bind,
      Except.bind, Memory.write, Memory.delete]

theorem Sound.unmaps_present {virt : Nat} (heap : HeapPages translate new)
    (h : Sound translate new tables m) (p : ι) (hv : virt >>> 20 < entries)
    (hne : (tables p).table ⟨virt >>> 20, hv⟩ ≠ 0) :
    ∃ m' t', unmapPage translate m (tables p) virt = .ok (m', t') ∧
      Unmaps translate new tables m p virt m' t' := by
  obtain ⟨n, pt, hrow, hpt, hentry, hlive, -⟩ := h.present heap hne
  obtain ⟨-, -, hpresent⟩ := tableEntry (heap.physical_aligned n) (virtualToPhysical_lt (new n))
  have hold : (rows tables m).leaf (virtualToPhysical translate (new n)) = some pt.leaf := by
    simp [rows, hlive]
  have hwalk : (walk m (tables p) virt).getD 0 = pt (ptIndex virt) &&& 0xfffff000 := by
    rw [walk, h.descriptor_eq heap, dif_pos hv, Table.lookup_of_leaf hrow hold, PageTable.leaf]
    by_cases hnone : pt (ptIndex virt) = 0 <;> simp [hnone]
  rw [unmapPage_present hv (hentry ▸ hpresent) (hpt ▸ hlive), hpt]
  by_cases hempty : PageTable.isEmpty (Function.update pt (ptIndex virt) 0) = true
  · have hsound : Sound translate new _ { m.delete translate (new n) with
        mm := if pt (ptIndex virt) &&& 0xfffff000 = 0 then m.mm
          else m.mm.freePage (pt (ptIndex virt) &&& 0xfffff000) } := (h.drop hrow).congr rfl
    rw [if_pos hempty]
    refine ⟨_, _, rfl, hsound, by rw [hwalk], ?_, fun q i => ?_⟩
    · refine h.descriptor_update heap hsound hv fun x k => ?_
      change (rows _ (m.delete translate (new n))).lookup x k = _
      rw [rows_drop, h.tidy.lookup_drop hrow]
      by_cases hx : x = (p, ⟨virt >>> 20, hv⟩)
      · subst hx
        have hcleared := (PageTable.isEmpty_iff _).mp hempty k
        rw [PageTable.leaf_clear, Function.update_apply] at hcleared
        rw [if_pos rfl, Table.lookup_of_leaf hrow hold]
        simp only [true_and]
        exact hcleared.symm
      · simp only [hx, false_and, if_false]
    · by_cases hq : q = p
      · subst hq
        rw [Function.update_self]
        by_cases hi : i = ⟨virt >>> 20, hv⟩
        · exact .inr (hi ▸ Function.update_self ..)
        · exact .inl (Function.update_of_ne hi ..)
      · exact .inl (by rw [Function.update_of_ne hq])
  · have hleaf : ∃ k, PageTable.leaf (Function.update pt (ptIndex virt) 0) k ≠ none := by
      by_contra hnone
      push Not at hnone
      exact hempty ((PageTable.isEmpty_iff _).mpr hnone)
    have hsound : Sound translate new tables
        { m.write translate (new n) (Function.update pt (ptIndex virt) 0) with
          mm := if pt (ptIndex virt) &&& 0xfffff000 = 0 then m.mm
            else m.mm.freePage (pt (ptIndex virt) &&& 0xfffff000) } :=
      (h.write hrow ((h.valid _ pt hlive).update _ (.inl rfl)) hleaf).congr rfl
    rw [if_neg hempty]
    refine ⟨_, _, rfl, ?_, by rw [hwalk], ?_, ?_⟩
    · rw [Function.update_eq_self]
      exact hsound
    · rw [Function.update_eq_self]
      refine h.descriptor_update heap hsound hv fun x k => ?_
      change (rows tables (m.write translate (new n) _)).lookup x k = _
      exact h.lookup_write hrow hold (PageTable.leaf_clear _ _)
    · rw [Function.update_eq_self]
      exact fun q i => .inl rfl

/-- `unmap_page` never fails. -/
theorem Sound.unmaps {virt : Nat} (heap : HeapPages translate new)
    (h : Sound translate new tables m) (p : ι) (hv : virt >>> 20 < entries) :
    ∃ m' t', unmapPage translate m (tables p) virt = .ok (m', t') ∧
      Unmaps translate new tables m p virt m' t' := by
  by_cases hzero : (tables p).table ⟨virt >>> 20, hv⟩ = 0
  · exact h.unmaps_none heap p hv hzero
  · exact h.unmaps_present heap p hv hzero

end WagtailMmu
