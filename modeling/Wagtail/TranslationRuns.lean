import Wagtail.TranslationRefinement

/-!
# Sequences of map and unmap calls

The partial map of every translation table after any calls on any of the tables:
what the MMU finds is the page of the last call for it. A page table is there as
long as a page of its megabyte is mapped.
-/
namespace WagtailMmu

open Runs (Run)
open Sparse (Table)
open WagtailMm (Mm)

variable {ι : Type} {entries : Nat} {translate new : Nat → Nat} {m : Memory}
  {tables : ι → TranslationTable entries}

/-! ## Which entries there are -/

/-- Every pair of indices is that of a page. -/
theorem exists_page (i : Nat) (k : Fin 256) : ∃ v, v >>> 20 = i ∧ ptIndex v = k := by
  refine ⟨i * 2 ^ 20 + k * 2 ^ 12, ?_, ?_⟩
  · rw [Nat.shiftRight_eq_div_pow]
    omega
  · apply Fin.ext
    have hlow := Nat.and_two_pow_sub_one_eq_mod (i * 2 ^ 20 + k * 2 ^ 12) 20
    simp only [Nat.reducePow, Nat.reduceSub] at hlow
    simp only [ptIndex, Nat.shiftRight_eq_div_pow, Nat.reducePow, hlow]
    omega

theorem walk_ne_none {t : TranslationTable entries} {v : Nat} :
    walk m t v ≠ none ↔ descriptor m t v ≠ none := by
  simp [walk]

theorem Sound.entry_iff (heap : HeapPages translate new) (h : Sound translate new tables m)
    (p : ι) (i : Fin entries) :
    (tables p).table i ≠ 0 ↔ ∃ v, v >>> 20 = i ∧ walk m (tables p) v ≠ none := by
  have hrow : (rows tables m).row (p, i) = none ↔ (tables p).table i = 0 := row_eq_none
  rw [Ne, ← hrow, ← Ne, h.tidy.row_iff]
  constructor
  · rintro ⟨k, hk⟩
    obtain ⟨v, hv, rfl⟩ := exists_page i k
    refine ⟨v, hv, walk_ne_none.mpr ?_⟩
    rw [h.descriptor_eq heap, dif_pos (hv ▸ i.isLt)]
    simpa only [hv] using hk
  · rintro ⟨v, hv, hwalk⟩
    refine ⟨ptIndex v, ?_⟩
    have hsome := walk_ne_none.mp hwalk
    rw [h.descriptor_eq heap, dif_pos (hv ▸ i.isLt)] at hsome
    simpa only [hv] using hsome

/-- The page table of an entry. -/
theorem Sound.live (heap : HeapPages translate new) (h : Sound translate new tables m) {p : ι}
    {i : Fin entries} (hne : (tables p).table i ≠ 0) :
    ∃ physical, (tables p).table i = physical ||| L1.typePageTable ∧
      (rows tables m).row (p, i) = some physical ∧ m.pageTables physical ≠ none := by
  obtain ⟨n, pt, hrow, -, hentry, hpt, -⟩ := h.present heap hne
  exact ⟨_, hentry, hrow, by simp [hpt]⟩

/-- Every page table belongs to one entry. -/
theorem Sound.owner (h : Sound translate new tables m) {physical : Nat}
    (hlive : m.pageTables physical ≠ none) :
    ∃ x : ι × Fin entries, (tables x.1).table x.2 ≠ 0 ∧
      (rows tables m).row x = some physical := by
  have hleaf : (rows tables m).leaf physical ≠ none := by simpa [rows] using hlive
  obtain ⟨x, hx⟩ := h.tidy.leaf_iff.mp hleaf
  refine ⟨x, fun hzero => ?_, hx⟩
  rw [row_eq_none.mpr hzero] at hx
  cases hx

/-! ## Runs -/

/-- The calls. -/
inductive Mapping (ι : Type) where
  | map (table : ι) (page virt : Nat) (permissions : Permissions) (type : IntervalType)
      (notGlobal : Bool)
  | unmap (table : ι) (page : Nat)

structure Tables (ι : Type) (entries : Nat) where
  tables : ι → TranslationTable entries
  memory : Memory

/-- Before the first call. -/
def Tables.start (mm : Mm) : Tables ι entries :=
  ⟨fun _ => .cleared, ⟨fun _ => none, 0, mm⟩⟩

/-- The table and the virtual address of a call. -/
def Mapping.target : Mapping ι → ι × Nat
  | .map table _ virt _ _ _ => (table, virt)
  | .unmap table page => (table, page)

/-- What a call maps its virtual page to. -/
def Mapping.page : Mapping ι → Option Nat
  | .map _ page _ _ _ _ => some page
  | .unmap _ _ => none

/-- The virtual address is below the end of the table, and a physical page is aligned. -/
def Mapping.InRange (entries : Nat) : Mapping ι → Prop
  | .map _ page virt _ _ _ => virt >>> 20 < entries ∧ page % 4096 = 0 ∧ page < 2 ^ 32
  | .unmap _ page => page >>> 20 < entries

instance (a : Mapping ι) : Decidable (a.InRange entries) := by
  cases a
  · exact inferInstanceAs (Decidable (_ ∧ _ ∧ _))
  · exact inferInstanceAs (Decidable (_ < _))

/-- The abstract state: the physical page of every virtual page of every table. -/
abbrev PageMap (ι : Type) := ι → Nat → Option Nat

variable [DecidableEq ι]

/-- The last call for a page decides. -/
def PageMap.perform (f : PageMap ι) : Mapping ι → PageMap ι
  | .map table page virt _ _ _ => fun p n =>
      if p = table ∧ n = virt / 4096 then some page else f p n
  | .unmap table page => fun p n => if p = table ∧ n = page / 4096 then none else f p n

def performMapping (translate new : Nat → Nat) (s : Tables ι entries) :
    Mapping ι → Except Fault (Tables ι entries)
  | .map table page virt permissions type notGlobal => do
    let (memory, t) ←
      mapPage translate new s.memory (s.tables table) page virt permissions type notGlobal
    Except.ok ⟨Function.update s.tables table t, memory⟩
  | .unmap table page => do
    let (memory, t) ← unmapPage translate s.memory (s.tables table) page
    Except.ok ⟨Function.update s.tables table t, memory⟩

def MappingStep (translate new : Nat → Nat) (s : Tables ι entries) (a : Mapping ι)
    (t : Tables ι entries) : Prop :=
  a.InRange entries ∧ performMapping translate new s a = .ok t

/-- The tables are sound and the MMU finds the pages of the abstract state. -/
structure Refines (translate new : Nat → Nat) (s : Tables ι entries) (f : PageMap ι) : Prop where
  sound : Sound translate new s.tables s.memory
  walk : ∀ p v, walk s.memory (s.tables p) v = f p (v / 4096)

omit [DecidableEq ι] in
theorem refines_start (mm : Mm) :
    Refines translate new (Tables.start mm : Tables ι entries) (fun _ _ => none) where
  sound :=
    { tidy := Table.tidy_empty
      entry := fun _ _ => .inl rfl
      directory := nofun
      valid := nofun }
  walk p v := by
    simp [WagtailMmu.walk, descriptor, Tables.start, TranslationTable.cleared, L1.typePageTable]

/-- One call: it only fails if the heap hands out a page table that is in use, and otherwise the
abstract call describes it. -/
theorem Refines.perform {s : Tables ι entries} {f : PageMap ι} {a : Mapping ι}
    (heap : HeapPages translate new) (h : Refines translate new s f) (ha : a.InRange entries) :
    (∃ t, performMapping translate new s a = .ok t ∧ Refines translate new t (f.perform a)) ∨
    performMapping translate new s a = .error .allocation ∧
      s.memory.pageTables (virtualToPhysical translate (new s.memory.allocations)) ≠ none := by
  cases a with
  | map table page virt permissions type notGlobal =>
    obtain ⟨hv, hpage, hlt⟩ := ha
    obtain ⟨m', t', hmap, hmaps⟩ | ⟨herror, huse⟩ :=
      h.sound.maps heap table hv page permissions type notGlobal
    · refine .inl ⟨_, by rw [performMapping, hmap]; rfl, hmaps.sound, fun p v => ?_⟩
      change Option.map _ (descriptor _ _ v) = _
      rw [hmaps.descriptor]
      simp only [PageMap.perform]
      split_ifs
      · rw [Option.map_some, pageEntry_page, and_page hpage hlt]
      · exact h.walk p v
    · exact .inr ⟨by rw [performMapping, herror]; rfl, huse⟩
  | unmap table page =>
    obtain ⟨m', t', hunmap, hunmaps⟩ := h.sound.unmaps heap table ha
    refine .inl ⟨_, by rw [performMapping, hunmap]; rfl, hunmaps.sound, fun p v => ?_⟩
    change Option.map _ (descriptor _ _ v) = _
    rw [hunmaps.descriptor]
    simp only [PageMap.perform]
    split_ifs
    · rfl
    · exact h.walk p v

/-- What the MMU finds after a run is the partial map of the calls. -/
theorem run_refines {mm : Mm} {actions : List (Mapping ι)} {t : Tables ι entries}
    (heap : HeapPages translate new)
    (hrun : Run (MappingStep translate new) (Tables.start mm) actions t) :
    Refines translate new t (actions.foldl PageMap.perform fun _ _ => none) := by
  refine hrun.history (P := fun actions t =>
    Refines translate new t (actions.foldl PageMap.perform fun _ _ => none)) (refines_start mm) ?_
  rintro actions s a t h ⟨ha, hperform⟩
  rw [List.foldl_concat]
  obtain ⟨t', ht', hrefines⟩ | ⟨herror, -⟩ := h.perform heap ha
  · rw [hperform] at ht'
    obtain rfl := Except.ok.inj ht'
    exact hrefines
  · rw [hperform] at herror
    cases herror

theorem PageMap.perform_apply (f : PageMap ι) (a : Mapping ι) (p : ι) (n : Nat) :
    f.perform a p n = if a.target.1 = p ∧ a.target.2 / 4096 = n then a.page else f p n := by
  cases a <;> simp only [perform, Mapping.target, Mapping.page, eq_comm]

/-- A call changes what is found in its own page. -/
theorem MappingStep.walk {s t : Tables ι entries} {a : Mapping ι} (heap : HeapPages translate new)
    (h : Sound translate new s.tables s.memory) (hstep : MappingStep translate new s a t) :
    Sound translate new t.tables t.memory ∧ ∀ p v, WagtailMmu.walk t.memory (t.tables p) v =
      if a.target.1 = p ∧ a.target.2 / 4096 = v / 4096 then a.page
      else WagtailMmu.walk s.memory (s.tables p) v := by
  have hrefines : Refines translate new s fun p n =>
      WagtailMmu.walk s.memory (s.tables p) (4096 * n) :=
    ⟨h, fun p v => h.walk_page heap (Nat.mul_div_cancel_left _ (by decide)).symm⟩
  obtain ⟨t', ht', hafter⟩ | ⟨herror, -⟩ := hrefines.perform heap hstep.1
  · obtain rfl := Except.ok.inj (hstep.2.symm.trans ht')
    refine ⟨hafter.sound, fun p v => ?_⟩
    rw [hafter.walk, PageMap.perform_apply, ← hrefines.walk]
  · cases hstep.2.symm.trans herror

theorem performMapping_map {s t : Tables ι entries} {table : ι} {page virt : Nat}
    {permissions : Permissions} {type : IntervalType} {notGlobal : Bool}
    (heap : HeapPages translate new) (h : Sound translate new s.tables s.memory)
    (hv : virt >>> 20 < entries)
    (hperform : performMapping translate new s
      (.map table page virt permissions type notGlobal) = .ok t) :
    ∃ t', t.tables = Function.update s.tables table t' ∧ Maps translate new s.tables s.memory table
      virt (pageEntry page permissions type notGlobal) t.memory t' := by
  obtain ⟨m', t', hmap, hmaps⟩ | ⟨herror, -⟩ :=
    h.maps heap table hv page permissions type notGlobal
  · rw [performMapping, hmap] at hperform
    obtain rfl := Except.ok.inj hperform
    exact ⟨t', rfl, hmaps⟩
  · rw [performMapping, herror] at hperform
    cases hperform

theorem performMapping_unmap {s t : Tables ι entries} {table : ι} {page : Nat}
    (heap : HeapPages translate new) (h : Sound translate new s.tables s.memory)
    (hv : page >>> 20 < entries)
    (hperform : performMapping translate new s (.unmap table page) = .ok t) :
    ∃ t', t.tables = Function.update s.tables table t' ∧
      Unmaps translate new s.tables s.memory table page t.memory t' := by
  obtain ⟨m', t', hunmap, hunmaps⟩ := h.unmaps heap table hv
  rw [performMapping, hunmap] at hperform
  obtain rfl := Except.ok.inj hperform
  exact ⟨t', rfl, hunmaps⟩

/-- A page table is gone after a call exactly if the entry it belongs to is. -/
theorem Sound.freed_iff {s t : Tables ι entries} {a : Mapping ι} {p : ι} {i : Fin entries}
    {physical : Nat} (heap : HeapPages translate new)
    (h : Sound translate new s.tables s.memory) (h' : Sound translate new t.tables t.memory)
    (hstep : MappingStep translate new s a t)
    (hrow : (rows s.tables s.memory).row (p, i) = some physical) :
    t.memory.pageTables physical = none ↔ (t.tables p).table i = 0 := by
  have hne : (s.tables p).table i ≠ 0 := by
    intro hzero
    rw [row_eq_none.mpr hzero] at hrow
    cases hrow
  obtain ⟨ha, hperform⟩ := hstep
  -- entries only change from or to zero, and only a call of `unmap_page` clears one
  have hkept : (t.tables p).table i = (s.tables p).table i ∨ (t.tables p).table i = 0 ∧
      ∀ q j, (t.tables q).table j ≠ 0 → (t.tables q).table j = (s.tables q).table j := by
    cases a with
    | map table page virt permissions type notGlobal =>
      obtain ⟨t', ht, hmaps⟩ := performMapping_map heap h ha.1 hperform
      rw [ht]
      exact .inl (hmaps.kept p i hne)
    | unmap table page =>
      obtain ⟨t', ht, hunmaps⟩ := performMapping_unmap heap h ha hperform
      rw [ht]
      refine (hunmaps.kept p i).imp id fun hzero => ⟨hzero, fun q j hj => ?_⟩
      exact (hunmaps.kept q j).resolve_right hj
  have hlive : (t.tables p).table i = (s.tables p).table i → t.memory.pageTables physical ≠ none := by
    intro hsame
    obtain ⟨other, -, hrow', hlive⟩ := h'.live heap (hsame ▸ hne)
    have hother : (rows t.tables t.memory).row (p, i) = (rows s.tables s.memory).row (p, i) := by
      simp only [rows, hsame]
    obtain rfl := Option.some.inj (hrow'.symm.trans (hother.trans hrow))
    exact hlive
  obtain hsame | ⟨hzero, hothers⟩ := hkept
  · exact iff_of_false (hlive hsame) (hsame ▸ hne)
  · refine iff_of_true ?_ hzero
    by_contra hlive'
    obtain ⟨⟨q, j⟩, hq, hrow'⟩ := h'.owner hlive'
    have hother : (rows t.tables t.memory).row (q, j) = (rows s.tables s.memory).row (q, j) := by
      simp only [rows, hothers q j hq]
    obtain ⟨rfl, rfl⟩ := Prod.mk.inj (h.tidy.injective _ _ _ (hother.symm.trans hrow') hrow)
    exact hq hzero

/-- It is gone exactly if the call unmaps the only page of its megabyte. -/
theorem Refines.freed {s t : Tables ι entries} {f : PageMap ι} {a : Mapping ι}
    (heap : HeapPages translate new) (h : Refines translate new s f)
    (hstep : MappingStep translate new s a t) {p : ι} {i : Fin entries} {physical : Nat}
    (hrow : (rows s.tables s.memory).row (p, i) = some physical) :
    t.memory.pageTables physical = none ↔ ∃ page, a = .unmap p page ∧ page >>> 20 = i ∧
      ∀ v, v >>> 20 = i → f p (v / 4096) ≠ none → v / 4096 = page / 4096 := by
  have h' : Refines translate new t (f.perform a) := by
    obtain ⟨t', ht', hrefines⟩ | ⟨herror, -⟩ := h.perform heap hstep.1
    · obtain rfl := Except.ok.inj (hstep.2.symm.trans ht')
      exact hrefines
    · exact nomatch hstep.2.symm.trans herror
  have hne : (s.tables p).table i ≠ 0 := by
    intro hzero
    rw [row_eq_none.mpr hzero] at hrow
    cases hrow
  obtain ⟨v₀, hv₀, hmapped⟩ := (h.sound.entry_iff heap p i).mp hne
  rw [h.walk] at hmapped
  rw [h.sound.freed_iff heap h'.sound hstep hrow, ← not_iff_not, ← Ne,
    h'.sound.entry_iff heap p i]
  simp only [h'.walk]
  cases a with
  | map table page virt permissions type notGlobal =>
    refine iff_of_true ⟨v₀, hv₀, ?_⟩ nofun
    simp only [PageMap.perform]
    split_ifs
    · exact Option.some_ne_none _
    · exact hmapped
  | unmap table page =>
    simp only [PageMap.perform]
    constructor
    · rintro ⟨v, hv, hsome⟩ ⟨_, ⟨⟩, -, hall⟩
      split_ifs at hsome with hcond
      · exact hsome rfl
      · exact hcond ⟨rfl, hall v hv hsome⟩
    · intro hnot
      by_contra hnone
      push Not at hnone
      have hcleared := hnone v₀ hv₀
      split_ifs at hcleared with hcond
      · obtain ⟨rfl, hpage⟩ := hcond
        refine hnot ⟨page, rfl, ?_, fun v hv hsome => ?_⟩
        · rw [← hv₀]
          exact ((page_eq_iff v₀ page).mp hpage).1.symm
        · by_contra hother
          have hkept := hnone v hv
          rw [if_neg (fun hcond => hother hcond.2)] at hkept
          exact hsome hkept
      · exact hmapped hcleared

/-! ## The partial map of a run -/

/-- The page of the last `map_page` of a virtual page that no `unmap_page` of it follows. -/
def lastPage (actions : List (Mapping ι)) : PageMap ι := fun p n =>
  (actions.reverse.find? fun a => decide (a.target.1 = p ∧ a.target.2 / 4096 = n)).bind Mapping.page

theorem foldl_perform (actions : List (Mapping ι)) :
    (actions.foldl PageMap.perform fun _ _ => none) = lastPage actions := by
  induction actions using List.reverseRecOn with
  | nil => rfl
  | append_singleton actions a ih =>
    rw [List.foldl_concat, ih]
    funext p n
    rw [PageMap.perform_apply]
    simp only [lastPage, List.reverse_append, List.reverse_singleton, List.singleton_append,
      List.find?_cons]
    by_cases hcond : a.target.1 = p ∧ a.target.2 / 4096 = n
    · simp [hcond]
    · simp [hcond]

/-- The tables are a partial map: the MMU finds its pages, an entry of a first level is there
exactly if a page of its megabyte is mapped, it refers to a page table that has not been freed, and
each page table belongs to one entry. -/
structure Represents (s : Tables ι entries) (f : PageMap ι) : Prop where
  walk : ∀ p v, walk s.memory (s.tables p) v = f p (v / 4096)
  entry : ∀ p i, (s.tables p).table i ≠ 0 ↔ ∃ v, v >>> 20 = i ∧ f p (v / 4096) ≠ none
  live : ∀ p i, (s.tables p).table i ≠ 0 →
    s.memory.pageTables ((s.tables p).table i &&& 0xfffffc00) ≠ none
  owner : ∀ physical, s.memory.pageTables physical ≠ none → ∃! x : ι × Fin entries,
    (s.tables x.1).table x.2 ≠ 0 ∧ (s.tables x.1).table x.2 &&& 0xfffffc00 = physical

/-- A call changes what is found in its own page only, and frees a page table exactly if it unmaps
the last page in it. -/
structure Changes (s : Tables ι entries) (f : PageMap ι) (a : Mapping ι) (u : Tables ι entries) :
    Prop where
  others : ∀ p v, ¬ (a.target.1 = p ∧ a.target.2 / 4096 = v / 4096) →
    WagtailMmu.walk u.memory (u.tables p) v = WagtailMmu.walk s.memory (s.tables p) v
  freed : ∀ p i, (s.tables p).table i ≠ 0 →
    (u.memory.pageTables ((s.tables p).table i &&& 0xfffffc00) = none ↔
      ∃ page, a = .unmap p page ∧ page >>> 20 = i ∧
        ∀ v, v >>> 20 = i → f p (v / 4096) ≠ none → v / 4096 = page / 4096)

omit [DecidableEq ι] in
theorem Refines.represents {s : Tables ι entries} {f : PageMap ι}
    (heap : HeapPages translate new) (h : Refines translate new s f) : Represents s f where
  walk := h.walk
  entry p i := by
    rw [h.sound.entry_iff heap p i]
    simp only [h.walk]
  live p i hne := by
    obtain ⟨physical, -, hrow, hlive⟩ := h.sound.live heap hne
    rwa [(row_eq_some.mp hrow).2]
  owner physical hlive := by
    obtain ⟨x, -, hrow⟩ := h.sound.owner hlive
    refine ⟨x, row_eq_some.mp hrow, fun y hy => ?_⟩
    exact h.sound.tidy.injective y x physical (row_eq_some.mpr hy) hrow

/-- After any calls the tables are the partial map of the last ones, and a call in range only
fails if the heap hands out memory that is in use. -/
theorem run_lastPage {mm : Mm} {actions : List (Mapping ι)} {t : Tables ι entries}
    (heap : HeapPages translate new)
    (hrun : Run (MappingStep translate new) (Tables.start mm) actions t) :
    Represents t (lastPage actions) ∧ ∀ a : Mapping ι, a.InRange entries →
      (∃ u, performMapping translate new t a = .ok u ∧ Changes t (lastPage actions) a u) ∨
      performMapping translate new t a = .error .allocation ∧
        t.memory.pageTables (virtualToPhysical translate (new t.memory.allocations)) ≠ none := by
  have h := run_refines heap hrun
  rw [foldl_perform] at h
  refine ⟨h.represents heap, fun a ha => (h.perform heap ha).imp_left ?_⟩
  rintro ⟨u, hperform, hrefines⟩
  refine ⟨u, hperform, fun p v hother => ?_, fun p i hne => ?_⟩
  · rw [hrefines.walk, h.walk, PageMap.perform_apply, if_neg hother]
  · exact h.freed heap ⟨ha, hperform⟩ (row_eq_some.mpr ⟨hne, rfl⟩)

/-! ## A page table that is freed and made again -/

/-- The step of a call in range. -/
def mappingStep (translate new : Nat → Nat) (s : Tables ι entries) (a : Mapping ι) :
    Option (Tables ι entries) :=
  if a.InRange entries then (performMapping translate new s a).toOption else none

theorem mappingStep_step {s t : Tables ι entries} {a : Mapping ι}
    (h : mappingStep translate new s a = some t) : MappingStep translate new s a t := by
  unfold mappingStep at h
  split_ifs at h with ha
  cases hperform : performMapping translate new s a with
  | error e => simp [hperform, Except.toOption] at h
  | ok u =>
    rw [hperform] at h
    obtain rfl : u = t := Option.some.inj h
    exact ⟨ha, hperform⟩

theorem heapPages_single : HeapPages id fun _ => 0x80100000 where
  aligned _ := rfl
  distinct _ _ _ := rfl

/-- Addresses of page tables in a part of the kernel heap. -/
def supply (n : Nat) : Nat := 0x80100000 + 1024 * (n % 1024)

theorem virtualToPhysical_id {virt : Nat} (h : virt < 2 ^ 32) :
    virtualToPhysical id virt = virt := by
  have hlow : virt &&& 0xfff = virt % 4096 := Nat.and_two_pow_sub_one_eq_mod virt 12
  have hhigh : virt &&& 0xfffff000 = virt - virt % 4096 :=
    Word.and_high_mask (k := 12) h (by decide)
  have hagain : (virt - virt % 4096) &&& 0xfffff000 = virt - virt % 4096 :=
    and_page (by omega) (by omega)
  simp only [virtualToPhysical, id_eq, hhigh, hlow, hagain]
  omega

theorem heapPages_supply : HeapPages id supply where
  aligned n := by
    unfold supply
    omega
  distinct m n h := by
    have hlt : ∀ n, supply n < 2 ^ 32 := by
      intro n
      unfold supply
      omega
    rwa [virtualToPhysical_id (hlt m), virtualToPhysical_id (hlt n)] at h

/-- Two pages of the first megabyte are mapped and unmapped, and a third is mapped then. -/
def remap : List (Mapping Unit) :=
  [.map () 0x80200000 0x1000 .rwRo .code false, .map () 0x80201000 0x2000 .rwRw .data false,
    .unmap () 0x1000, .unmap () 0x2000, .map () 0x80202000 0x3000 .rwRw .data false]

def remapped : Tables Unit 2048 :=
  (remap.foldlM (mappingStep id fun _ => 0x80100000)
    (Tables.start ⟨true, 0x80800000, ⟨16, []⟩⟩)).get (by decide +kernel)

/-- The page table is at the same place as the first one, and holds the third page alone. -/
theorem remapped_represents : Represents remapped (lastPage remap) ∧
    (remapped.tables ()).table 0 = 0x80100001 ∧ lastPage remap () 1 = none ∧
    lastPage remap () 3 = some 0x80202000 :=
  ⟨(run_lastPage heapPages_single
      (Run.of_foldlM (fun _ _ _ => mappingStep_step) (Option.some_get _).symm)).1,
    by decide +kernel, by decide +kernel, by decide +kernel⟩

end WagtailMmu
