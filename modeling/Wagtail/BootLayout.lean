import Wagtail.BootTables
import Wagtail.HeapRuns

/-!
# Where the kernel's image may end

The page tables lie in the memory that they map. Whether the ones that are made
after the MMU has been enabled still lie in mapped memory is decided by the end
of the image alone.
-/
namespace WagtailBoot

open Word (wrap wrap_of_lt)
open WagtailHeap (align_page initializeMm kernelHeapSize Bootable)
open WagtailMmu

variable {translate : Nat → Nat} {s t : Boot} {l : Layout} {last : Nat}

/-! ## Before the MMU is enabled -/

/-- The stack's megabyte. -/
abbrev stackTable : Nat := 0x9ff

/-- The first megabyte of the devices. -/
abbrev deviceTable : Nat := 0xc00

theorem Layout.start_maps (l : Layout) : Maps l [] textStart l.start where
  completed := rfl
  dataEnd := rfl
  hasTable i := by
    have hnone : ¬ l.start.HasTable i := fun ⟨_, h⟩ => h (Nat.zero_and _)
    refine iff_of_false hnone ?_
    simp only [List.not_mem_nil, or_false]
    omega
  mapped := (Nat.max_eq_left l.text_le).symm

/-- The data space is mapped up to here when the MMU is enabled: up to the first page from the end
of the image on that lies above all page tables. -/
structure Reaches (l : Layout) (last : Nat) : Prop where
  aligned : last % 4096 = 0
  data_le : l.dataEnd ≤ last
  above : l.bump (tablesFor [stackTable] last) < last
  first : ∀ page, page % 4096 = 0 → l.dataEnd ≤ page → page < last →
    page ≤ l.bump (tablesFor [stackTable] page)
  bounded : last ≤ 0xff800000

theorem bump_bounded (hlast : last ≤ 2 ^ 32) :
    l.bump (tablesFor [stackTable] last) < 0xff400000 := by
  have hle := bump_le (l := l) (n := tablesFor [stackTable] last)
  have hfits := l.fits
  have hfilter : ([stackTable].filter (last ≤ · * 0x100000)).length ≤ 1 := List.length_filter_le ..
  simp only [Layout.place, alignUp, tablesFor, textStart] at hle ⊢
  omega

/-- The loop ends on the first page above all page tables. -/
theorem mapDataspace_spec (translate : Nat → Nat) (fuel : Nat)
    (hfuel : 2 ^ 20 ≤ last / 4096 + fuel) (hmaps : Maps l [stackTable] last s)
    (hend : s.mm.kernelDataspaceEnd = last) (haligned : last % 4096 = 0) (hdata : l.dataEnd ≤ last)
    (hfirst : ∀ page, page % 4096 = 0 → l.dataEnd ≤ page → page < last →
      page ≤ l.bump (tablesFor [stackTable] page)) (hbounded : last ≤ 0xff800000) :
    ∃ t last', mapDataspace translate fuel s = some t ∧ Maps l [stackTable] last' t ∧
      Reaches l last' ∧ t.mm.kernelDataspaceEnd = last' ∧ t.nextDeviceAddr = s.nextDeviceAddr ∧
      (.mmuEnabled ∈ t.trace ↔ .mmuEnabled ∈ s.trace) := by
  induction fuel generalizing s last with
  | zero => omega
  | succ fuel ih =>
    have htext := l.text_le
    have hdataStart := l.data_le
    have hdataEnd : l.dataStart ≤ last := by
      simp only [Layout.dataEnd] at hdata
      omega
    rw [mapDataspace, hend]
    by_cases hle : last ≤ s.mm.kernelDataEnd
    · have hbump : l.bump (tablesFor [stackTable] last) < 0xff400000 := bump_bounded (by omega)
      rw [hmaps.dataEnd] at hle
      obtain ⟨t, ht, hframe, hmaps', -⟩ := hmaps.mapPage translate last .rwNa .data (by decide)
        (by decide) haligned (by omega) (by omega) (.inr ⟨hdataEnd, rfl⟩)
      rw [if_pos (by rwa [hmaps.dataEnd])]
      simp only [ht, Option.bind_eq_bind, Option.bind_some, hframe.dataspaceEnd, hend,
        wrap_of_lt (show last + 4096 < 2 ^ 32 by omega)]
      have hmoved : Maps l [stackTable] (last + 4096)
          { t with mm := { t.mm with kernelDataspaceEnd := last + 4096 } } :=
        hmaps'.congr rfl rfl rfl rfl
      obtain ⟨u, last', hu, hmaps'', hreaches, hend', hnext, henabled⟩ := ih (by omega) hmoved rfl
        (by omega) (by omega) (fun page hpage hfrom hto => by
          obtain hlt | rfl : page < last ∨ page = last := by omega
          · exact hfirst page hpage hfrom hlt
          · exact hle) (by omega)
      exact ⟨u, last', hu, hmaps'', hreaches, hend', hnext.trans hframe.nextDeviceAddr,
        henabled.trans hframe.enabled⟩
    · rw [if_neg hle]
      rw [hmaps.dataEnd] at hle
      exact ⟨s, last, rfl, hmaps, ⟨haligned, hdata, by omega, hfirst, hbounded⟩, hend, rfl, Iff.rfl⟩

/-- The state in which the MMU is enabled. -/
theorem mmuInitialize_spec (translate : Nat → Nat) (l : Layout) : ∃ t last,
    mmuInitialize translate l l.start = some t ∧ Maps l [stackTable] last t ∧ Reaches l last ∧
      t.mm.kernelDataspaceEnd = last ∧ t.nextDeviceAddr = 0xc0000000 ∧ .mmuEnabled ∉ t.trace := by
  obtain ⟨htext, hdata, haligned, -, hfits⟩ := And.intro l.text_le (And.intro l.data_le
    (And.intro l.data_aligned (And.intro l.bss_aligned l.fits)))
  have hend : l.dataEnd = (l.bssEnd + 4095) / 4096 * 4096 := rfl
  have hcode : textStart + 4096 * ((l.dataStart - textStart + 4095) / 4096) = l.dataStart := by
    simp only [textStart] at htext ⊢
    omega
  have hspace : l.dataStart + 4096 * ((l.dataEnd - l.dataStart + 4095) / 4096) = l.dataEnd := by
    omega
  obtain ⟨t₁, ht₁, hframe₁, hmaps₁, -⟩ := l.start_maps.mapPages translate textStart
    ((l.dataStart - textStart + 4095) / 4096) .roNa .code List.nodup_nil (by decide)
    (by decide) (Nat.le_refl _) (by omega) (.inl ⟨by omega, by decide⟩)
  rw [hcode] at hmaps₁
  obtain ⟨t₂, ht₂, hframe₂, hmaps₂, -⟩ := hmaps₁.mapPages translate l.dataStart
    ((l.dataEnd - l.dataStart + 4095) / 4096) .rwNa .data List.nodup_nil (by decide)
    haligned htext (by omega) (.inr ⟨Nat.le_refl _, rfl⟩)
  rw [hspace] at hmaps₂
  obtain ⟨t₃, ht₃, hframe₃, hmaps₃, -⟩ := hmaps₂.mapOthers translate 0x80000000
    (0xa0000000 - 0x8000) 7 .rwNa .stack (by decide) (by omega) (by decide)
    (by decide) (by decide) (by decide) (by decide)
  have hframe := (hframe₁.trans hframe₂).trans hframe₃
  obtain ⟨t, last, ht, hmaps, hreaches, hdataspace, hnext, henabled⟩ := mapDataspace_spec translate
    maxPages (by simp only [maxPages]; omega) hmaps₃ hframe.dataspaceEnd (by omega)
    (Nat.le_refl _) (fun page _ hfrom hto => by omega) (by omega)
  refine ⟨t, last, ?_, hmaps, hreaches, hdataspace, hnext.trans hframe.nextDeviceAddr, ?_⟩
  · have hcode' : mapInterval translate l.start textStart l.dataStart textStart .roNa .code =
        some t₁ := ht₁
    have hspace' : mapInterval translate t₁ l.dataStart l.dataEnd l.dataStart .rwNa .data =
        some t₂ := ht₂
    have hstack : mapInterval translate t₂ 0x80000000 0x80008000 (0xa0000000 - 0x8000) .rwNa
        .stack = some t₃ := ht₃
    simp only [mmuInitialize, hcode', hspace', hstack, Option.bind_eq_bind, Option.bind_some, ht]
  · rw [henabled, hframe.enabled]
    exact List.not_mem_nil

/-! ## Until the heap is ready -/

/-- A page table that is made when the data space is mapped up to here lies below, with its
node. -/
def Room (l : Layout) (others : List Nat) (last : Nat) : Prop :=
  l.bump (tablesFor others last + 1) ≤ last

theorem Maps.enable {others : List Nat} (h : Maps l others last s) :
    Maps l others last (s.record .mmuEnabled) where
  completed := h.completed
  dataEnd := h.dataEnd
  hasTable := h.hasTable
  mapped := (mappedEnd_append _).trans h.mapped

theorem enable_handsOut (h : .mmuEnabled ∉ s.trace) :
    HandsOutMapped l.dataStart (s.record .mmuEnabled).trace :=
  (handsOut_append _).mpr ⟨handsOut_disabled h, fun _ _ he => by cases he⟩

/-- The registers of the memory controller are mapped. -/
theorem Maps.mapSdrc (translate : Nat → Nat) (h : Maps l [stackTable] last s)
    (hlast : last ≤ 2 ^ 32) (hdata : l.dataStart ≤ last) (hnext : s.nextDeviceAddr = 0xc0000000)
    (henabled : .mmuEnabled ∈ s.trace) :
    ∃ address t, mapDevice translate s sdrcPhysical (64 * 1024) = some (address, t) ∧
      Maps l [deviceTable, stackTable] last t ∧
      t.mm.kernelDataspaceEnd = s.mm.kernelDataspaceEnd ∧ .mmuEnabled ∈ t.trace ∧
      (HandsOutMapped l.dataStart t.trace ↔ HandsOutMapped l.dataStart s.trace ∧
        (last ≤ 0xc0000000 → Room l [stackTable] last)) := by
  obtain ⟨t, ht, hframe, hmaps, hhands⟩ := h.mapOthers translate sdrcPhysical 0xc0000000 15 .rwNa
    .device (by decide) hlast (by decide) (by decide) (by decide) (by decide) (by decide)
  have hinterval : mapInterval translate s sdrcPhysical (wrap (sdrcPhysical + 64 * 1024))
      0xc0000000 .rwNa .device = some t := ht
  have hindex : 0xc0000000 / 0x100000 = deviceTable := by decide
  have hfirst : deviceTable * 0x100000 = 0xc0000000 := by decide
  rw [hindex] at hmaps hhands
  rw [hfirst] at hhands
  simp only [mapDevice, hnext, hinterval, Option.bind_eq_bind, Option.bind_some]
  refine ⟨_, _, rfl, hmaps.congr rfl rfl rfl rfl, hframe.dataspaceEnd,
    hframe.enabled.mpr henabled, ?_⟩
  rw [hhands, Nat.max_eq_right hdata]
  exact and_congr_right fun _ => ⟨fun hroom => hroom henabled, fun hroom _ => hroom⟩

theorem align_round {x : Nat} (hx : x % 4096 = 0) (hlt : x + 4095 < 2 ^ 32) :
    wrap (x + 4095) &&& WagtailHeap.maskLeft 4096 = x := by
  rw [align_page hlt]
  omega

theorem div_mul_pages {x n : Nat} (hx : x % 4096 = 0) :
    (x + 4096 * n) / 4096 * 4096 = x + 4096 * n := by
  omega

/-- What is handed out once the MMU is enabled is mapped if there is room for the table of the
devices and for every table that the heap takes. -/
theorem mmInitialize_spec (translate : Nat → Nat) (hmaps : Maps l [stackTable] last s)
    (hreaches : Reaches l last) (hend : s.mm.kernelDataspaceEnd = last)
    (hnext : s.nextDeviceAddr = 0xc0000000) (hdisabled : .mmuEnabled ∉ s.trace) :
    ∃ t m, mmInitialize translate (s.record .mmuEnabled) = some t ∧ t.mm = initializeMm m ∧
      m.kernelDataEnd = l.bump (tablesFor [deviceTable, stackTable] (last + 4096 * 1024)) ∧
      m.kernelDataspaceEnd = last ∧ (HandsOutMapped l.dataStart t.trace ↔
        (last ≤ 0xc0000000 → Room l [stackTable] last) ∧
        ∀ i < 1024, Fresh [deviceTable, stackTable] (last + 4096 * i) →
          Room l [deviceTable, stackTable] (last + 4096 * i)) := by
  have hbounded := hreaches.bounded
  have haligned := hreaches.aligned
  have htext := l.text_le
  have hdata : l.dataStart ≤ last := by
    have hlast := hreaches.data_le
    have hstart := l.data_le
    simp only [Layout.dataEnd] at hlast
    omega
  obtain ⟨address, t₁, hdevice, hmaps₁, hend₁, henabled₁, hhands₁⟩ := hmaps.enable.mapSdrc translate
    (by omega) hdata hnext (List.mem_append_right _ (List.mem_singleton_self _))
  obtain ⟨t₂, ht₂, hframe₂, hmaps₂, hhands₂⟩ := hmaps₁.mapPages translate last 1024 .rwNa .data
    (by decide) (by decide) haligned (by omega) (by omega) (.inr ⟨hdata, rfl⟩)
  obtain ⟨n, hsize, hn⟩ : ∃ n, kernelHeapSize = 4096 * n ∧ n = 1024 := ⟨1024, by decide, rfl⟩
  have hmappingEnd : wrap (last + 4096 * n) &&& WagtailHeap.maskLeft 4096 = last + 4096 * n := by
    refine (align_page ?_).trans (div_mul_pages haligned)
    omega
  have hheap : mapInterval translate t₁ last (last + 4096 * n) last .rwNa .data = some t₂ := by
    have hcount : (last + 4096 * n - last + 4095) / 4096 = 1024 := by omega
    rw [mapInterval, hcount, ht₂]
  refine ⟨{ t₂ with mm := initializeMm t₂.mm }, t₂.mm, ?_, rfl, hmaps₂.dataEnd,
    hframe₂.dataspaceEnd.trans (hend₁.trans hend), ?_⟩
  · simp only [mmInitialize, hdevice, Option.bind_eq_bind, Option.bind_some, hend₁.trans hend,
      hsize, align_round haligned (show last + 4095 < 2 ^ 32 by omega), hmappingEnd, hheap]
  · have hmax : ∀ i, max l.dataStart (last + 4096 * i) = last + 4096 * i := fun i =>
      Nat.max_eq_right (by omega)
    change HandsOutMapped l.dataStart t₂.trace ↔ _
    rw [hhands₂, hhands₁, and_iff_right (enable_handsOut hdisabled)]
    simp only [hmax, henabled₁, true_imp_iff]
    rfl

/-- In every layout, the switch to the MMU finds the data space mapped up to some page, and that
decides. -/
theorem boot_spec (translate : Nat → Nat) (l : Layout) : ∃ last t m, boot translate l = some t ∧
    Reaches l last ∧ t.mm = initializeMm m ∧
    m.kernelDataEnd = l.bump (tablesFor [deviceTable, stackTable] (last + 4096 * 1024)) ∧
    m.kernelDataspaceEnd = last ∧ (HandsOutMapped l.dataStart t.trace ↔
      (last ≤ 0xc0000000 → Room l [stackTable] last) ∧
      ∀ i < 1024, Fresh [deviceTable, stackTable] (last + 4096 * i) →
        Room l [deviceTable, stackTable] (last + 4096 * i)) := by
  obtain ⟨s, last, hs, hmaps, hreaches, hend, hnext, hdisabled⟩ := mmuInitialize_spec translate l
  obtain ⟨t, m, ht, hm⟩ := mmInitialize_spec translate hmaps hreaches hend hnext hdisabled
  refine ⟨last, t, m, ?_, hreaches, hm⟩
  simp only [boot, hs, ht, Option.bind_eq_bind, Option.bind_some]

/-! ## The layouts -/

/-- The page tables of the image and the stack. -/
def Layout.imageTables (l : Layout) : Nat :=
  (l.dataEnd - textStart + 0xfffff) / 0x100000 + if l.dataEnd ≤ 0x9ff00000 then 1 else 0

/-- The first megabyte behind the image that has no page table then. -/
def Layout.nextMegabyte (l : Layout) : Nat :=
  let next := (l.dataEnd + 0xfffff) / 0x100000 * 0x100000
  if next = 0x9ff00000 then 0xa0000000 else next

/-- The page tables when the MMU is enabled. The ones of the image may reach into the next
megabyte, which takes another table, and so on. -/
def Layout.tables (l : Layout) : Nat :=
  l.imageTables +
    if l.bump l.imageTables < l.nextMegabyte then 0
    else (l.bump l.imageTables - l.nextMegabyte) / (0x100000 - 2048) + 1

/-- The end of the data space when the MMU is enabled. -/
def Layout.mappedTo (l : Layout) : Nat := l.bump l.tables / 4096 * 4096 + 4096

/-- There is room behind the page tables for another one, in the page in which they end. -/
def Layout.Spare (l : Layout) : Prop :=
  l.place l.tables % 4096 = 1024 ∨ l.place l.tables % 4096 = 2048
  deriving Decidable

/-- The layouts in which all that is handed out is mapped. -/
def Layout.Boots (l : Layout) : Prop :=
  if l.mappedTo ≤ 0xc0000000 then
    l.Spare ∧ (l.mappedTo % 0x100000 = 0 → l.mappedTo = 0x9ff00000 ∨ l.mappedTo = 0xc0000000)
  else l.mappedTo % 0x100000 = 0 → l.Spare

theorem tablesFor_stack : tablesFor [stackTable] last =
    (last - textStart + 0xfffff) / 0x100000 + if last ≤ 0x9ff00000 then 1 else 0 := by
  have hfirst : stackTable * 0x100000 = 0x9ff00000 := by decide
  rw [tablesFor_cons, hfirst, tablesFor, List.filter_nil, List.length_nil, Nat.add_zero]

theorem tablesFor_device : tablesFor [deviceTable, stackTable] last =
    tablesFor [stackTable] last + if last ≤ 0xc0000000 then 1 else 0 := by
  have hfirst : deviceTable * 0x100000 = 0xc0000000 := by decide
  rw [tablesFor_cons, hfirst]

/-- Behind the first table, the end of the kernel's data is where the next table is put, less the
gap behind the node. -/
theorem bump_place {n : Nat} (hn : 0 < n) : l.bump n + 1000 = l.place n := by
  cases n with
  | zero => omega
  | succ n =>
    simp only [Layout.bump, Layout.place]
    omega

theorem place_add (n k : Nat) : l.place (n + k) = l.place n + 2048 * k := by
  simp only [Layout.place]
  omega

theorem bump_add {n k : Nat} (hn : 0 < n) : l.bump (n + k) = l.bump n + 2048 * k := by
  have hplace := bump_place (l := l) hn
  have hplace' := bump_place (l := l) (n := n + k) (by omega)
  rw [place_add] at hplace'
  omega

theorem four_dvd_bump {n : Nat} : 4 ∣ l.bump n := by
  cases n with
  | zero => exact Nat.dvd_of_mod_eq_zero l.bss_aligned
  | succ n =>
    simp only [Layout.bump, Layout.place, alignUp]
    omega

theorem bump_mono {m n : Nat} (hmn : m ≤ n) : l.bump m ≤ l.bump n := by
  cases m with
  | zero =>
    have hle := bump_le (l := l) (n := 0)
    cases n with
    | zero => exact Nat.le_refl _
    | succ n =>
      simp only [Layout.bump, Layout.place] at hle ⊢
      omega
  | succ m =>
    have hadd := bump_add (l := l) (n := m + 1) (k := n - (m + 1)) (by omega)
    rw [Nat.add_sub_cancel' hmn] at hadd
    omega

theorem textStart_le (l : Layout) : textStart ≤ l.dataEnd := by
  have htext := l.text_le
  have hdata := l.data_le
  simp only [Layout.dataEnd]
  omega

theorem imageTables_pos (l : Layout) : 0 < l.imageTables := by
  have htext := textStart_le l
  rw [Layout.imageTables]
  simp only [textStart] at htext ⊢
  by_cases hstack : l.dataEnd ≤ 0x9ff00000
  · rw [if_pos hstack]
    omega
  · rw [if_neg hstack]
    omega

/-- The page tables of an image that has any bytes are at least two. -/
theorem dataEnd_le_bump (l : Layout) : l.dataEnd ≤ l.bump l.imageTables := by
  have htext := textStart_le l
  have hbump := bump_place (l := l) (imageTables_pos l)
  have hend : l.dataEnd = (l.bssEnd + 4095) / 4096 * 4096 := rfl
  have htables : l.dataEnd = textStart ∨ 2 ≤ l.imageTables := by
    rw [Layout.imageTables]
    simp only [textStart] at htext ⊢
    by_cases hstack : l.dataEnd ≤ 0x9ff00000
    · rw [if_pos hstack]
      omega
    · rw [if_neg hstack]
      omega
  have hpos := imageTables_pos l
  have hstart := l.text_le
  have hdata := l.data_le
  simp only [Layout.place, alignUp, textStart] at hbump htables hstart
  omega

/-- Behind `first`, the megabytes without a page table of the stack are counted from the next
one on. -/
theorem megabytes_behind {first next : Nat} (hfirst : 0x81000000 ≤ first) (hle : first ≤ last)
    (hnext : next = if (first + 0xfffff) / 0x100000 * 0x100000 = 0x9ff00000 then 0xa0000000
      else (first + 0xfffff) / 0x100000 * 0x100000)
    (hstack : next < 0x9ff00000 → last ≤ 0x9ff00000) :
    (last - 0x81000000 + 0xfffff) / 0x100000 + (if last ≤ 0x9ff00000 then 1 else 0) =
      (first - 0x81000000 + 0xfffff) / 0x100000 + (if first ≤ 0x9ff00000 then 1 else 0) +
        if last ≤ next then 0 else (last - next - 1) / 0x100000 + 1 := by
  by_cases hlast : last ≤ 0x9ff00000
  · rw [if_pos hlast, if_pos (hle.trans hlast)]
    split_ifs at hnext ⊢ <;> omega
  · rw [if_neg hlast]
    split_ifs at hnext ⊢ <;> omega

/-- Behind the image, the number of tables grows with the megabytes that have none yet. -/
theorem tablesFor_behind (hdata : l.dataEnd ≤ last)
    (hstack : l.nextMegabyte < 0x9ff00000 → last ≤ 0x9ff00000) : tablesFor [stackTable] last =
      l.imageTables + if last ≤ l.nextMegabyte then 0
        else (last - l.nextMegabyte - 1) / 0x100000 + 1 := by
  rw [tablesFor_stack, Layout.imageTables]
  exact megabytes_behind (textStart_le l) hdata rfl hstack

theorem nextMegabyte_spec (l : Layout) : l.dataEnd ≤ l.nextMegabyte ∧
    l.nextMegabyte % 0x100000 = 0 ∧ l.nextMegabyte ≠ 0x9ff00000 ∧
    (l.nextMegabyte < 0x9ff00000 → l.dataEnd ≤ 0x9fe00000) := by
  rw [Layout.nextMegabyte]
  split_ifs with hnext <;> omega

/-- An image in front of the stack does not reach the stack's megabyte with its tables. -/
theorem Reaches.le_stack (h : Reaches l last) (hnext : l.nextMegabyte < 0x9ff00000) :
    last ≤ 0x9ff00000 := by
  by_contra hlast
  have hdata := (nextMegabyte_spec l).2.2.2 hnext
  have hfirst := h.first 0x9ff00000 (by decide) (by omega) (by omega)
  have htables : tablesFor [stackTable] 0x9ff00000 = 496 := by decide
  have hbss : l.bssEnd ≤ l.dataEnd := by
    simp only [Layout.dataEnd]
    omega
  have hplace := bump_place (l := l) (n := 496) (by decide)
  rw [htables] at hfirst
  simp only [Layout.place, alignUp] at hplace
  omega

/-- The number of page tables when the MMU is enabled. -/
theorem Reaches.tables (h : Reaches l last) : tablesFor [stackTable] last = l.tables := by
  obtain ⟨hle, hboundary, -, -⟩ := nextMegabyte_spec l
  have hpos := imageTables_pos l
  have hbehind : ∀ p, l.dataEnd ≤ p → p ≤ last → tablesFor [stackTable] p = l.imageTables +
      if p ≤ l.nextMegabyte then 0 else (p - l.nextMegabyte - 1) / 0x100000 + 1 :=
    fun p hp hplast => tablesFor_behind hp fun hnext => hplast.trans (h.le_stack hnext)
  have habove := h.above
  rw [hbehind last h.data_le (Nat.le_refl _)] at habove
  rw [hbehind last h.data_le (Nat.le_refl _), Layout.tables]
  by_cases hlast : last ≤ l.nextMegabyte
  · rw [if_pos hlast, Nat.add_zero] at habove
    rw [if_pos hlast, if_pos (Nat.lt_of_lt_of_le habove hlast)]
  · rw [if_neg hlast, bump_add hpos] at habove
    -- The last boundary that the pages have crossed, and the one before them all.
    set k := (last - l.nextMegabyte - 1) / 0x100000 with hk
    have hcrossed := h.first (l.nextMegabyte + 0x100000 * k) (by omega) (by omega) (by omega)
    have hentered := h.first l.nextMegabyte (by omega) hle (by omega)
    rw [hbehind _ (by omega) (by omega), if_pos (Nat.le_refl _), Nat.add_zero] at hentered
    have hcount : (if l.nextMegabyte + 0x100000 * k ≤ l.nextMegabyte then 0
        else (l.nextMegabyte + 0x100000 * k - l.nextMegabyte - 1) / 0x100000 + 1) = k := by
      split_ifs <;> omega
    rw [hbehind _ (by omega) (by omega), hcount, bump_add hpos] at hcrossed
    rw [if_neg hlast, if_neg (by omega)]
    omega

theorem tables_pos (l : Layout) : 0 < l.tables := by
  have hpos := imageTables_pos l
  rw [Layout.tables]
  omega

theorem tablesFor_mono {p : Nat} (hp : p ≤ last) (hdata : l.dataEnd ≤ p) :
    tablesFor [stackTable] p ≤ tablesFor [stackTable] last := by
  have htext := textStart_le l
  rw [tablesFor_stack, tablesFor_stack]
  simp only [textStart] at htext ⊢
  split_ifs <;> omega

/-- The end of the data space when the MMU is enabled. -/
theorem Reaches.mappedTo (h : Reaches l last) :
    last = l.mappedTo ∧ l.bump l.tables < last ∧ last ≤ l.bump l.tables + 4096 := by
  have habove := h.above
  have haligned := h.aligned
  have hdata := h.data_le
  have hle : last ≤ l.bump l.tables + 4096 := by
    obtain hbefore | hafter := Nat.lt_or_ge (last - 4096) l.dataEnd
    · have himage := dataEnd_le_bump l
      have hmono : l.bump l.imageTables ≤ l.bump l.tables := by
        rw [Layout.tables, bump_add (imageTables_pos l)]
        omega
      have hend : l.dataEnd = (l.bssEnd + 4095) / 4096 * 4096 := rfl
      omega
    · have hfirst := h.first (last - 4096) (by omega) hafter (by
        have htext := textStart_le l
        simp only [textStart] at htext
        omega)
      have hmono := bump_mono (l := l) (tablesFor_mono (Nat.sub_le last 4096) hafter)
      rw [h.tables] at hmono
      omega
  rw [h.tables] at habove
  refine ⟨?_, habove, hle⟩
  have hplace := bump_place (l := l) (tables_pos l)
  simp only [Layout.place, alignUp] at hplace
  rw [Layout.mappedTo]
  omega

/-- There is room for one more table. -/
theorem Reaches.room (h : Reaches l last) : Room l [stackTable] last ↔ l.Spare := by
  obtain ⟨-, habove, hle⟩ := h.mappedTo
  have haligned := h.aligned
  have hplace := bump_place (l := l) (tables_pos l)
  rw [Room, h.tables, bump_add (k := 1) (tables_pos l), Layout.Spare]
  have hkilobytes : l.place l.tables % 1024 = 0 := by
    simp only [Layout.place, alignUp]
    omega
  omega

/-- A table of the heap behind the first page has room: a megabyte is larger than a table. -/
theorem Reaches.room_behind (h : Reaches l last) {p : Nat} (hp : last + 4096 ≤ p)
    (hboundary : p % 0x100000 = 0) : Room l [deviceTable, stackTable] p := by
  obtain ⟨-, habove, -⟩ := h.mappedTo
  have htext := (textStart_le l).trans h.data_le
  have htables := h.tables
  -- The boundaries in between.
  obtain ⟨q, hq⟩ : ∃ q, p / 0x100000 = (last + 0xfffff) / 0x100000 + q :=
    ⟨_, (Nat.add_sub_cancel' (by omega)).symm⟩
  have hcount : tablesFor [deviceTable, stackTable] p + 1 ≤ l.tables + (q + 2) := by
    rw [tablesFor_stack] at htables
    rw [tablesFor_device, tablesFor_stack]
    simp only [textStart] at htext htables ⊢
    split_ifs at htables ⊢ <;> omega
  have hmono := bump_mono (l := l) hcount
  rw [bump_add (tables_pos l)] at hmono
  rw [Room]
  omega

/-- The first page of the heap has room for a table, if it takes one, and the table of the devices
is not put in front of it. -/
theorem Reaches.room_first (h : Reaches l last) :
    (Fresh [deviceTable, stackTable] last → Room l [deviceTable, stackTable] last) ↔
      (last % 0x100000 = 0 → last = 0x9ff00000 ∨ last = 0xc0000000 ∨
        0xc0000000 < last ∧ l.Spare) := by
  obtain ⟨-, habove, hle⟩ := h.mappedTo
  have hfresh : Fresh [deviceTable, stackTable] last ↔
      last % 0x100000 = 0 ∧ ¬ (last = 0x9ff00000 ∨ last = 0xc0000000) := by
    simp only [Fresh, List.mem_cons, List.not_mem_nil, or_false, deviceTable, stackTable]
    omega
  have hroom : Room l [deviceTable, stackTable] last ↔ 0xc0000000 < last ∧ l.Spare := by
    by_cases hdevice : last ≤ 0xc0000000
    · refine iff_of_false ?_ fun h => absurd h.1 (by omega)
      have hplace := bump_place (l := l) (tables_pos l)
      have haligned := h.aligned
      rw [Room, tablesFor_device, h.tables, if_pos hdevice, Nat.add_assoc, bump_add (tables_pos l)]
      simp only [Layout.place, alignUp] at hplace
      omega
    · rw [← h.room, Room, Room, tablesFor_device, if_neg hdevice, Nat.add_zero]
      exact (and_iff_right (by omega)).symm
  rw [hfresh, hroom, and_imp, ← or_assoc]
  exact imp_congr_right fun _ => or_iff_not_imp_left.symm

/-- What is handed out once the MMU is enabled is mapped in exactly these layouts. -/
theorem boots_iff (translate : Nat → Nat) (l : Layout) : ∃ t, boot translate l = some t ∧
    (HandsOutMapped l.dataStart t.trace ↔ l.Boots) := by
  obtain ⟨last, t, -, ht, hreaches, -, -, -, hhands⟩ := boot_spec translate l
  refine ⟨t, ht, hhands.trans ?_⟩
  have hheap : (∀ i < 1024, Fresh [deviceTable, stackTable] (last + 4096 * i) →
      Room l [deviceTable, stackTable] (last + 4096 * i)) ↔
      (Fresh [deviceTable, stackTable] last → Room l [deviceTable, stackTable] last) := by
    constructor
    · exact fun hall => hall 0 (by decide)
    · intro hfirst i _
      cases i with
      | zero => exact hfirst
      | succ i => exact fun hfresh => hreaches.room_behind (by omega) hfresh.1
  rw [hheap, hreaches.room_first, hreaches.room, Layout.Boots, ← hreaches.mappedTo.1]
  by_cases hdevice : last ≤ 0xc0000000
  · have hnot : ¬ 0xc0000000 < last := by omega
    rw [if_pos hdevice]
    simp only [hdevice, hnot, true_imp_iff, false_and, or_false]
  · have hstack : last ≠ 0x9ff00000 := by omega
    have hstart : last ≠ 0xc0000000 := by omega
    have habove : 0xc0000000 < last := by omega
    rw [if_neg hdevice]
    simp only [hdevice, hstack, hstart, habove, false_imp_iff, true_and, false_or]

/-- An image that ends well inside of the first megabyte has to end in the first half of a page. -/
theorem boots_of_small (hpos : textStart < l.bssEnd) (hsmall : l.bssEnd ≤ 0x810fd000) :
    l.Boots ↔ 0 < l.bssEnd % 4096 ∧ l.bssEnd % 4096 ≤ 2048 := by
  have hend : l.dataEnd = (l.bssEnd + 4095) / 4096 * 4096 := rfl
  have hplace : l.place 2 = (l.bssEnd + 1023) / 1024 * 1024 + 4096 := by
    simp only [Layout.place, alignUp]
    omega
  have hbump := bump_place (l := l) (n := 2) (by decide)
  simp only [textStart] at hpos
  have himage : l.imageTables = 2 := by
    rw [Layout.imageTables, if_pos (by omega), textStart]
    omega
  have hnext : l.nextMegabyte = 0x81100000 := by
    have hround : (l.dataEnd + 0xfffff) / 0x100000 * 0x100000 = 0x81100000 := by omega
    rw [Layout.nextMegabyte, hround]
    rfl
  have htables : l.tables = 2 := by
    rw [Layout.tables, himage, hnext, if_pos (by omega)]
  have hmapped : l.mappedTo = l.bump 2 / 4096 * 4096 + 4096 := by rw [Layout.mappedTo, htables]
  have hinside : ¬ l.mappedTo % 0x100000 = 0 := by omega
  rw [Layout.Boots, if_pos (by omega), Layout.Spare, htables]
  simp only [hinside, false_imp_iff, and_true]
  omega

/-- The state in which the heap starts is one that the linker script and the page tables leave. -/
theorem boot_bootable (translate : Nat → Nat) (l : Layout) :
    ∃ t m, boot translate l = some t ∧ t.mm = initializeMm m ∧ Bootable m := by
  obtain ⟨last, t, m, ht, hreaches, hm, hend, hspace, -⟩ := boot_spec translate l
  obtain ⟨-, habove, -⟩ := hreaches.mappedTo
  have hbounded := hreaches.bounded
  have haligned := hreaches.aligned
  have htext := l.text_le
  have hdata := l.data_le
  have hheap : kernelHeapSize = 4194304 := by decide
  have hblock : WagtailHeap.sizeofBlock = 16 := rfl
  have hcount : tablesFor [deviceTable, stackTable] (last + 4096 * 1024) ≤ l.tables + 5 := by
    rw [← hreaches.tables, tablesFor_device, tablesFor_stack, tablesFor_stack]
    split_ifs <;> omega
  have hmono := bump_mono (l := l) hcount
  have hbss := bump_mono (l := l)
    (Nat.zero_le (tablesFor [deviceTable, stackTable] (last + 4096 * 1024)))
  rw [bump_add (tables_pos l), ← hend] at hmono
  rw [Layout.bump, ← hend] at hbss
  simp only [textStart] at htext
  refine ⟨t, m, ht, hm, ⟨by omega, hend ▸ four_dvd_bump, ?_, ?_⟩⟩
  · rw [hspace, hheap, hblock]
    omega
  · rw [hspace, hheap]
    omega

/-- An image that ends with a page. -/
def pageLayout : Layout where
  dataStart := 0x81004000
  bssEnd := 0x81010000
  text_le := by decide
  data_le := by decide
  data_aligned := by decide
  bss_aligned := by decide
  fits := by decide

/-- It has no room for the table of the devices. -/
theorem pageLayout_unmapped : ¬ ∀ (translate : Nat → Nat) (l : Layout) (t : Boot),
    boot translate l = some t → HandsOutMapped l.dataStart t.trace := by
  intro hclaim
  obtain ⟨last, t, -, ht, hreaches, -, -, -, hhands⟩ := boot_spec id pageLayout
  have hlast : last ≤ 0xc0000000 := by
    rw [hreaches.mappedTo.1]
    decide
  have hroom := (hhands.mp (hclaim id pageLayout t ht)).1 hlast
  exact absurd (hreaches.room.mp hroom) (by decide)

end WagtailBoot
