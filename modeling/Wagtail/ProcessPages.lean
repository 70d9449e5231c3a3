import Wagtail.Library.Pool
import Wagtail.Process
import Wagtail.TranslationRuns

/-!
# The pages of processes

Every physical page of the pool is free or mapped at one place of one
translation table. The rounds of the loops that build and tear down an address
space keep that.
-/
namespace WagtailProcess

open Word (wrap sub wrap_of_lt sub_of_le)
open WagtailMm (Mm StaticKstack)
open WagtailMmu
open Pool (Exclusive Conserved)
open Runs (foldlM_except)

variable {translate new : Nat → Nat} {w u : World} {table : Nat}

/-- The pages on the stack. -/
def World.free (w : World) : List Nat := w.memory.mm.pageStack.elements

/-- What a table translates an address to. -/
def World.walk (w : World) (table virt : Nat) : Option Nat :=
  WagtailMmu.walk w.memory (w.tables table) virt

/-- The pages of the pool that are mapped, by table and virtual page. -/
def World.held (w : World) : Nat × Nat → Option Nat := fun x =>
  (w.walk x.1 (4096 * x.2)).filter fun page => page ≠ 0

/-- An address that the page allocator hands out. -/
def PageAddress (page : Nat) : Prop := page ≠ 0 ∧ page % 4096 = 0 ∧ page < 2 ^ 32

/-- The page stack is there, and no page is in two places. -/
structure Valid (translate new : Nat → Nat) (w : World) : Prop where
  sound : Sound translate new w.tables w.memory
  ready : w.memory.mm.pageStackInitialized = true
  exclusive : Exclusive w.free w.held
  address : ∀ page ∈ w.free, PageAddress page

/-! ## The page allocator -/

theorem allocatePage_eq {mm : Mm} (h : mm.pageStackInitialized = true) :
    mm.allocatePage = (mm.pageStack.elements.headD 0,
      { mm with pageStack := { mm.pageStack with elements := mm.pageStack.elements.tail } }) := by
  obtain ⟨initialized, dataspaceEnd, capacity, elements⟩ := mm
  obtain rfl : initialized = true := h
  cases elements with
  | nil => rfl
  | cons page rest => rfl

/-! ## Walks -/

theorem walk_page (heap : HeapPages translate new) (h : Sound translate new w.tables w.memory)
    {v v' : Nat} (hpage : v / 4096 = v' / 4096) : w.walk table v = w.walk table v' :=
  h.walk_page heap hpage

/-- Only the tables and the kernel's memory matter. -/
theorem walk_congr (htables : u.tables = w.tables) (hmemory : u.memory = w.memory) (q v : Nat) :
    u.walk q v = w.walk q v := by
  rw [World.walk, World.walk, htables, hmemory]

/-- What the MMU finds is aligned. -/
theorem walk_aligned {m : Memory} {t : TranslationTable 2048} {v page : Nat}
    (h : WagtailMmu.walk m t v = some page) : page % 4096 = 0 ∧ page < 2 ^ 32 := by
  obtain ⟨entry, -, rfl⟩ := Option.map_eq_some_iff.mp h
  have hlt : entry &&& 0xfffff000 < 2 ^ 32 := Nat.and_lt_two_pow _ (by decide)
  have hlow : (entry &&& 0xfffff000) &&& (2 ^ 12 - 1) = 0 := by
    rw [Nat.and_assoc]
    exact Nat.and_zero _
  rw [Nat.and_two_pow_sub_one_eq_mod] at hlow
  exact ⟨hlow, hlt⟩

/-- One page of one table changes. -/
theorem held_update {page : Option Nat} {virt : Nat}
    (hwalk : ∀ q v, u.walk q v =
      if q = table ∧ v / 4096 = virt / 4096 then page else w.walk q v) :
    u.held = Function.update w.held (table, virt / 4096) (page.filter fun page => page ≠ 0) := by
  funext ⟨q, n⟩
  have hn : 4096 * n / 4096 = n := Nat.mul_div_cancel_left n (by decide)
  simp only [World.held, hwalk, hn, Function.update_apply, Prod.mk.injEq]
  split_ifs <;> rfl

/-! ## A page that is allocated and mapped -/

/-- The next page of the stack, or page 0 if there is none, is mapped. -/
structure NewPage (translate new : Nat → Nat) (table : Nat) (w : World) (virt : Nat) (u : World) :
    Prop where
  valid : Valid translate new u
  free : u.free = w.free.tail
  capacity : u.memory.mm.pageStack.capacity = w.memory.mm.pageStack.capacity
  walk : ∀ q v, u.walk q v =
    if q = table ∧ v / 4096 = virt / 4096 then some (w.free.headD 0) else w.walk q v
  bytes : u.bytes = w.bytes
  mmu : u.mmu = w.mmu
  dataAborts : u.dataAborts = w.dataAborts

/-- A place is taken by the next page of the stack, if there is one. -/
theorem held_new {virt : Nat} (hw : Valid translate new w)
    (hwalk : ∀ q v, u.walk q v =
      if q = table ∧ v / 4096 = virt / 4096 then some (w.free.headD 0) else w.walk q v) :
    u.held = Function.update w.held (table, virt / 4096) w.free.head? := by
  rw [held_update hwalk]
  cases hfree : w.free with
  | nil => rfl
  | cons page rest =>
    have hpage := hw.address page (by simp [hfree])
    simp [Option.filter, hpage.1]

theorem exclusive_new (hw : Valid translate new w) (k : Nat × Nat) :
    Exclusive w.free.tail (Function.update w.held k w.free.head?) := by
  have hexclusive := hw.exclusive
  cases hfree : w.free with
  | nil => exact (hfree ▸ hexclusive).drop k
  | cons page rest => exact (hfree ▸ hexclusive).take k

theorem conserved_new {all : List Nat} {k : Nat × Nat} (hw : Conserved all w.free w.held)
    (hk : w.held k = none) :
    Conserved all w.free.tail (Function.update w.held k w.free.head?) := by
  cases hfree : w.free with
  | nil =>
    rw [List.head?_nil, ← hk, Function.update_eq_self]
    rwa [hfree] at hw
  | cons page rest => exact (hfree ▸ hw).take hk

theorem mapNew_eq (w : World) (r : Request) : mapNew translate new table w r =
    (mapPage translate new { w.memory with mm := w.memory.mm.allocatePage.2 } (w.tables table)
      w.memory.mm.allocatePage.1 r.address r.permissions r.type false).map fun s =>
        { w with memory := s.1, tables := Function.update w.tables table s.2 } := by
  simp only [mapNew]
  cases mapPage translate new { w.memory with mm := w.memory.mm.allocatePage.2 } (w.tables table)
    w.memory.mm.allocatePage.1 r.address r.permissions r.type false with
  | error e => rfl
  | ok s => rfl

theorem mapNew_maps (heap : HeapPages translate new) (hw : Valid translate new w) {r : Request}
    (hv : r.address >>> 20 < 2048) :
    (∃ m' t', mapNew translate new table w r =
        .ok { w with memory := m', tables := Function.update w.tables table t' } ∧
      Maps translate new w.tables { w.memory with mm := { w.memory.mm with pageStack :=
        { w.memory.mm.pageStack with elements := w.memory.mm.pageStack.elements.tail } } }
        table r.address (pageEntry (w.free.headD 0) r.permissions r.type false) m' t') ∨
    mapNew translate new table w r = .error .allocation := by
  set mm : Mm := { w.memory.mm with pageStack :=
    { w.memory.mm.pageStack with elements := w.memory.mm.pageStack.elements.tail } } with hmm
  have hallocate : w.memory.mm.allocatePage = (w.free.headD 0, mm) := allocatePage_eq hw.ready
  have hsound : Sound translate new w.tables { w.memory with mm := mm } := hw.sound.congr rfl
  obtain ⟨m', t', hmap, hmaps⟩ | ⟨herror, -⟩ :=
    hsound.maps heap table hv (w.free.headD 0) r.permissions r.type false
  · refine .inl ⟨m', t', ?_, hmaps⟩
    rw [mapNew_eq, hallocate, hmap]
    rfl
  · refine .inr ?_
    rw [mapNew_eq, hallocate, herror]
    rfl

/-- The next page of the stack is aligned, also if there is none. -/
theorem head_aligned (hw : Valid translate new w) :
    w.free.headD 0 % 4096 = 0 ∧ w.free.headD 0 < 2 ^ 32 := by
  cases hfree : w.free with
  | nil => exact ⟨rfl, by decide⟩
  | cons page rest => exact (hw.address page (by simp [hfree])).2

theorem mapNew_spec (heap : HeapPages translate new) (hw : Valid translate new w) {r : Request}
    (hv : r.address >>> 20 < 2048) :
    (∃ u, mapNew translate new table w r = .ok u ∧
      NewPage translate new table w r.address u) ∨
    mapNew translate new table w r = .error .allocation := by
  have hpage : w.free.headD 0 &&& 0xfffff000 = w.free.headD 0 :=
    and_page (head_aligned hw).1 (head_aligned hw).2
  obtain ⟨m', t', hmap, hmaps⟩ | herror := mapNew_maps heap hw hv
  · refine .inl ⟨_, hmap, ?_⟩
    set u : World := { w with memory := m', tables := Function.update w.tables table t' } with hu
    have hwalk : ∀ q v, u.walk q v =
        if q = table ∧ v / 4096 = r.address / 4096 then some (w.free.headD 0) else w.walk q v := by
      intro q v
      change Option.map _ (descriptor m' (Function.update w.tables table t' q) v) = _
      rw [hmaps.descriptor]
      split_ifs
      · rw [Option.map_some, pageEntry_page, hpage]
      · rfl
    have hfree : u.free = w.free.tail := by
      change m'.mm.pageStack.elements = _
      rw [hmaps.mm]
      rfl
    refine ⟨⟨hmaps.sound, ?_, ?_, ?_⟩, hfree, ?_, hwalk, rfl, rfl, rfl⟩
    · change m'.mm.pageStackInitialized = true
      rw [hmaps.mm]
      exact hw.ready
    · rw [hfree, held_new hw hwalk]
      exact exclusive_new hw _
    · rw [hfree]
      exact fun page hpage => hw.address page (List.mem_of_mem_tail hpage)
    · change m'.mm.pageStack.capacity = _
      rw [hmaps.mm]
  · exact .inr herror

/-- The entry that the MMU finds for a page that has been mapped. -/
theorem mapNew_descriptor (heap : HeapPages translate new) (hw : Valid translate new w)
    {r : Request} (hv : r.address >>> 20 < 2048) (h : mapNew translate new table w r = .ok u)
    (q v : Nat) : descriptor u.memory (u.tables q) v =
      if q = table ∧ v / 4096 = r.address / 4096 then
        some (pageEntry (w.free.headD 0) r.permissions r.type false)
      else descriptor w.memory (w.tables q) v := by
  obtain ⟨m', t', hmap, hmaps⟩ | herror := mapNew_maps heap hw hv
  · obtain rfl := Except.ok.inj (h.symm.trans hmap)
    exact hmaps.descriptor q v
  · cases h.symm.trans herror

/-! ## The loops that build an address space -/

/-- An address is in the page of one of the requests. -/
def Requested (rs : List Request) (virt : Nat) : Prop := ∃ r ∈ rs, r.address / 4096 = virt / 4096

/-- All requests are met, with pages of the stack as long as there are any. -/
structure Grown (translate new : Nat → Nat) (table : Nat) (w : World) (rs : List Request)
    (u : World) : Prop where
  valid : Valid translate new u
  free : u.free = w.free.drop rs.length
  capacity : u.memory.mm.pageStack.capacity = w.memory.mm.pageStack.capacity
  others : ∀ q v, ¬ (q = table ∧ Requested rs v) → u.walk q v = w.walk q v
  mapped : ∀ v, Requested rs v → ∃ page, u.walk table v = some page ∧
    (page ∈ w.free ∨ page = 0 ∧ w.free.length < rs.length)
  null : w.free.length < rs.length → ∃ v, u.walk table v = some 0
  bytes : u.bytes = w.bytes
  mmu : u.mmu = w.mmu
  dataAborts : u.dataAborts = w.dataAborts

theorem Grown.nil (hw : Valid translate new w) : Grown translate new table w [] w where
  valid := hw
  free := rfl
  capacity := rfl
  others _ _ _ := rfl
  mapped := by simp [Requested]
  null := nofun
  bytes := rfl
  mmu := rfl
  dataAborts := rfl

theorem requested_snoc {rs : List Request} {r : Request} {v : Nat} :
    Requested (rs ++ [r]) v ↔ Requested rs v ∨ r.address / 4096 = v / 4096 := by
  simp [Requested, or_and_right, exists_or]

theorem Grown.snoc {t : World} {rs : List Request} {r : Request}
    (h : Grown translate new table w rs t) (hr : NewPage translate new table t r.address u) :
    Grown translate new table w (rs ++ [r]) u where
  valid := hr.valid
  free := by rw [hr.free, h.free, List.tail_drop, List.length_append, List.length_singleton]
  capacity := hr.capacity.trans h.capacity
  others := by
    intro q v hnot
    rw [requested_snoc] at hnot
    rw [hr.walk, if_neg, h.others]
    · exact fun ⟨hq, hv⟩ => hnot ⟨hq, .inl hv⟩
    · exact fun ⟨hq, hv⟩ => hnot ⟨hq, .inr hv.symm⟩
  mapped := by
    intro v hv
    rw [hr.walk]
    by_cases hlast : v / 4096 = r.address / 4096
    · rw [if_pos ⟨rfl, hlast⟩, h.free, List.length_append, List.length_singleton]
      refine ⟨_, rfl, ?_⟩
      cases hdrop : w.free.drop rs.length with
      | nil => exact .inr ⟨rfl, Nat.lt_succ_of_le (List.drop_eq_nil_iff.mp hdrop)⟩
      | cons page rest =>
        have hmem : page ∈ w.free.drop rs.length := by simp [hdrop]
        exact .inl (List.mem_of_mem_drop hmem)
    · have hbefore := (requested_snoc.mp hv).resolve_right fun hsame => hlast hsame.symm
      obtain ⟨page, hpage, hwhere⟩ := h.mapped v hbefore
      rw [if_neg fun hcond => hlast hcond.2, List.length_append]
      exact ⟨page, hpage, hwhere.imp_right fun ⟨hnull, hlt⟩ => ⟨hnull, by omega⟩⟩
  null := by
    intro hlt
    rw [List.length_append, List.length_singleton] at hlt
    have hempty : t.free = [] := by
      rw [h.free]
      exact List.drop_eq_nil_iff.mpr (by omega)
    refine ⟨r.address, ?_⟩
    rw [hr.walk, if_pos ⟨rfl, rfl⟩, hempty, List.headD_nil]
  bytes := hr.bytes.trans h.bytes
  mmu := hr.mmu.trans h.mmu
  dataAborts := hr.dataAborts.trans h.dataAborts

/-- The addresses of the requests are below the end of the table. -/
def InRange (rs : List Request) : Prop := ∀ r ∈ rs, r.address >>> 20 < 2048

theorem mapAll_spec (heap : HeapPages translate new) (hw : Valid translate new w) (table : Nat)
    {rs : List Request} (hrange : InRange rs) :
    (∃ u, rs.foldlM (mapNew translate new table) w = .ok u ∧
      Grown translate new table w rs u) ∨
    rs.foldlM (mapNew translate new table) w = .error .allocation := by
  have hloop := foldlM_except (f := mapNew translate new table) (s := w) (l := rs)
    (I := Grown translate new table w) (E := fun x => x = .allocation) (.nil hw)
    fun done r t ⟨rest, hsplit⟩ hdone => by
      have hr := hrange r (by simp [hsplit])
      obtain ⟨u, hu, hnew⟩ | herror := mapNew_spec heap hdone.valid hr
      · exact .inl ⟨u, hu, hdone.snoc hnew⟩
      · exact .inr ⟨_, herror, rfl⟩
  refine hloop.imp id ?_
  rintro ⟨x, hx, rfl⟩
  exact hx

/-- Nothing is lost if the pages are different ones that are not mapped yet. -/
theorem mapAll_conserved (heap : HeapPages translate new) (hw : Valid translate new w)
    {rs : List Request} (hrange : InRange rs) {all : List Nat}
    (hall : Conserved all w.free w.held) (hunmapped : ∀ v, Requested rs v → w.walk table v = none)
    (hdistinct : (rs.map fun r => r.address / 4096).Nodup)
    (hu : rs.foldlM (mapNew translate new table) w = .ok u) : Conserved all u.free u.held := by
  have hloop := foldlM_except (f := mapNew translate new table) (s := w) (l := rs)
    (I := fun done t => Grown translate new table w done t ∧ Conserved all t.free t.held)
    (E := fun _ => True) ⟨.nil hw, hall⟩
    fun done r t ⟨rest, hsplit⟩ ⟨hdone, hconserved⟩ => by
      obtain ⟨u, hu, hnew⟩ | herror :=
        mapNew_spec heap hdone.valid (hrange r (by simp [hsplit]))
      · refine .inl ⟨u, hu, hdone.snoc hnew, ?_⟩
        have hpage : 4096 * (r.address / 4096) / 4096 = r.address / 4096 :=
          Nat.mul_div_cancel_left _ (by decide)
        have hnew' : ¬ Requested done (4096 * (r.address / 4096)) := by
          rintro ⟨r', hr', hsame⟩
          rw [hsplit, List.map_append, List.map_cons] at hdistinct
          exact List.disjoint_of_nodup_append hdistinct (List.mem_map_of_mem hr')
            (by simp [hsame.trans hpage])
        have hnone : t.held (table, r.address / 4096) = none := by
          rw [World.held, hdone.others _ _ fun hcond => hnew' hcond.2,
            hunmapped _ ⟨r, by simp [hsplit], hpage.symm⟩]
          rfl
        rw [held_new hdone.valid hnew.walk, hnew.free]
        exact conserved_new hconserved hnone
      · exact .inr ⟨_, herror, trivial⟩
  obtain ⟨t, ht, -, hconserved⟩ | ⟨x, hx, -⟩ := hloop
  · rw [hu] at ht
    exact Except.ok.inj ht ▸ hconserved
  · rw [hu] at hx
    cases hx

/-- Setting up an address space neither reads nor writes user memory. -/
theorem mapNew_congr {table : Nat} (htables : u.tables = w.tables) (hmemory : u.memory = w.memory)
    (r : Request) : mapNew translate new table u r =
      (mapNew translate new table w r).map fun t =>
        { t with bytes := u.bytes, mmu := u.mmu, dataAborts := u.dataAborts } := by
  rw [mapNew_eq, mapNew_eq, htables, hmemory]
  cases mapPage translate new { w.memory with mm := w.memory.mm.allocatePage.2 } (w.tables table)
    w.memory.mm.allocatePage.1 r.address r.permissions r.type false with
  | error e => rfl
  | ok s => rfl

theorem mapAll_congr {table : Nat} (rs : List Request) (htables : u.tables = w.tables)
    (hmemory : u.memory = w.memory) : rs.foldlM (mapNew translate new table) u =
      (rs.foldlM (mapNew translate new table) w).map
        fun t => { t with bytes := u.bytes, mmu := u.mmu, dataAborts := u.dataAborts } := by
  induction rs generalizing u w with
  | nil =>
    obtain ⟨tables, memory, bytes, mmu, dataAborts⟩ := u
    obtain rfl : tables = w.tables := htables
    obtain rfl : memory = w.memory := hmemory
    rfl
  | cons r rs ih =>
    rw [List.foldlM_cons, List.foldlM_cons, mapNew_congr htables hmemory]
    cases mapNew translate new table w r with
    | error e => rfl
    | ok t => exact ih rfl rfl

/-! ## Which pages a process has -/

/-- The pages of a process in the order in which they are mapped. -/
def requests (codePages dataPages stackPages : Nat) : List Request :=
  codeRequests codePages ++ dataRequests codePages dataPages ++ stackRequests stackPages

def Process.requests (proc : Process) : List Request :=
  WagtailProcess.requests proc.codePages proc.dataPages proc.stackPages

/-- The sections are in user memory. -/
def InUser (codePages dataPages stackPages : Nat) : Prop :=
  codePages + dataPages < 0x80000 ∧ stackPages ≤ 0x80000

section

variable {c d s : Nat}

theorem requests_pages (h : InUser c d s) : (requests c d s).map (fun r => r.address / 4096) =
    (List.range c).map (fun i => 1 + i) ++ (List.range d).map (fun i => 1 + c + i) ++
      (List.range s).map fun i => 0x80000 - 1 - i := by
  obtain ⟨hcd, hs⟩ := h
  simp only [requests, codeRequests, dataRequests, stackRequests, List.map_append, List.map_map]
  congr 1
  · congr 1
    · refine List.map_congr_left fun i hi => ?_
      rw [List.mem_range] at hi
      simp only [Function.comp_apply]
      rw [wrap_of_lt (by omega)]
      omega
    · refine List.map_congr_left fun i hi => ?_
      rw [List.mem_range] at hi
      simp only [Function.comp_apply]
      rw [wrap_of_lt (by omega)]
      omega
  · refine List.map_congr_left fun i hi => ?_
    rw [List.mem_range] at hi
    simp only [Function.comp_apply]
    rw [wrap_of_lt (by omega), sub_of_le (by omega) (by decide)]
    omega

/-- The code and the data are behind page 0, and the stack is at the end of user memory. -/
theorem requested_iff (h : InUser c d s) (v : Nat) : Requested (requests c d s) v ↔
    1 ≤ v / 4096 ∧ v / 4096 < 1 + c + d ∨ 0x80000 - s ≤ v / 4096 ∧ v / 4096 < 0x80000 := by
  have hmem : Requested (requests c d s) v ↔
      v / 4096 ∈ (requests c d s).map fun r => r.address / 4096 := by
    simp [Requested]
  obtain ⟨hcd, hs⟩ := id h
  rw [hmem, requests_pages h]
  simp only [List.mem_append, List.mem_map, List.mem_range]
  constructor
  · rintro ((⟨i, hi, hv⟩ | ⟨i, hi, hv⟩) | ⟨i, hi, hv⟩) <;> omega
  · rintro (⟨hlow, hhigh⟩ | ⟨hlow, hhigh⟩)
    · by_cases hcode : v / 4096 < 1 + c
      · exact .inl (.inl ⟨v / 4096 - 1, by omega, by omega⟩)
      · exact .inl (.inr ⟨v / 4096 - 1 - c, by omega, by omega⟩)
    · exact .inr ⟨0x80000 - 1 - v / 4096, by omega, by omega⟩

theorem requests_inRange (h : InUser c d s) : InRange (requests c d s) := by
  intro r hr
  have hpage := (requested_iff h r.address).mp ⟨r, hr, rfl⟩
  obtain ⟨hcd, hs⟩ := h
  rw [Nat.shiftRight_eq_div_pow]
  omega

/-- The sections do not overlap. -/
theorem requests_distinct (h : 1 + c + d + s ≤ 0x80000) :
    ((requests c d s).map fun r => r.address / 4096).Nodup := by
  rw [requests_pages ⟨by omega, by omega⟩]
  refine List.nodup_append.mpr ⟨List.nodup_append.mpr ⟨?_, ?_, ?_⟩, ?_, ?_⟩
  · exact List.nodup_range.map fun i j hij => by simpa using hij
  · exact List.nodup_range.map fun i j hij => by simpa using hij
  · intro a ha b hb
    obtain ⟨i, hi, rfl⟩ := List.mem_map.mp ha
    obtain ⟨j, hj, rfl⟩ := List.mem_map.mp hb
    rw [List.mem_range] at hi hj
    omega
  · refine (List.nodup_map_iff_inj_on List.nodup_range).mpr fun i hi j hj hij => ?_
    rw [List.mem_range] at hi hj
    omega
  · intro a ha b hb
    obtain ⟨j, hj, rfl⟩ := List.mem_map.mp hb
    simp only [List.mem_append, List.mem_map, List.mem_range] at ha hj
    obtain ⟨i, hi, rfl⟩ | ⟨i, hi, rfl⟩ := ha
    · omega
    · omega

end

/-! ## The loops that tear one down -/

/-- The world with other contents of one table. -/
def World.withTable (w : World) (table : Nat) (s : Memory × TranslationTable 2048) : World :=
  { w with memory := s.1, tables := Function.update w.tables table s.2 }

/-- The pages at the addresses are back on the stack. -/
structure Shrunk (translate new : Nat → Nat) (table : Nat) (w : World) (addresses : List Nat)
    (u : World) : Prop where
  valid : Valid translate new u
  capacity : u.memory.mm.pageStack.capacity = w.memory.mm.pageStack.capacity
  walk : ∀ q v, u.walk q v =
    if q = table ∧ ∃ a ∈ addresses, v / 4096 = a / 4096 then none else w.walk q v
  conserved : ∀ all, Conserved all w.free w.held → Conserved all u.free u.held
  tables : ∀ q, q ≠ table → u.tables q = w.tables q
  bytes : u.bytes = w.bytes
  mmu : u.mmu = w.mmu

theorem Shrunk.nil (hw : Valid translate new w) : Shrunk translate new table w [] w where
  valid := hw
  capacity := rfl
  walk := by simp
  conserved _ h := h
  tables _ _ := rfl
  bytes := rfl
  mmu := rfl

/-- One page goes back. -/
theorem unmapPage_spec (heap : HeapPages translate new) (hw : Valid translate new w)
    (table : Nat) {virt : Nat} (hv : virt >>> 20 < 2048) :
    ∃ s, unmapPage translate w.memory (w.tables table) virt = .ok s ∧
      Shrunk translate new table w [virt] (w.withTable table s) := by
  obtain ⟨m', t', hunmap, hunmaps⟩ := hw.sound.unmaps heap table hv
  refine ⟨(m', t'), hunmap, ?_⟩
  set u : World := w.withTable table (m', t') with hu
  have hwalk : ∀ q v, u.walk q v =
      if q = table ∧ v / 4096 = virt / 4096 then none else w.walk q v := by
    intro q v
    change Option.map _ (descriptor m' (Function.update w.tables table t' q) v) = _
    rw [hunmaps.descriptor]
    split_ifs <;> rfl
  have hpage : 4096 * (virt / 4096) / 4096 = virt / 4096 :=
    Nat.mul_div_cancel_left _ (by decide)
  have hheld : u.held = Function.update w.held (table, virt / 4096) none := held_update hwalk
  have hplace : w.held (table, virt / 4096) = (w.walk table virt).filter fun page => page ≠ 0 := by
    rw [World.held, walk_page heap hw.sound hpage]
  have hmm : m'.mm = if (w.walk table virt).getD 0 = 0 then w.memory.mm
      else w.memory.mm.freePage ((w.walk table virt).getD 0) := hunmaps.mm
  cases hk : w.held (table, virt / 4096) with
  | none =>
    have hzero : (w.walk table virt).getD 0 = 0 := by
      rw [hk] at hplace
      cases hfound : w.walk table virt with
      | none => rfl
      | some page =>
        rw [hfound] at hplace
        by_contra hne
        rw [Option.filter_some_pos (by simpa using hne)] at hplace
        cases hplace
    rw [if_pos hzero] at hmm
    have hsame : u.held = w.held := by rw [hheld, ← hk, Function.update_eq_self]
    have hfree : u.free = w.free := congrArg (fun mm : Mm => mm.pageStack.elements) hmm
    refine ⟨⟨hunmaps.sound, hmm ▸ hw.ready, ?_, ?_⟩, ?_, by simpa using hwalk, ?_, ?_, rfl, rfl⟩
    · rw [hfree, hsame]
      exact hw.exclusive
    · rw [hfree]
      exact hw.address
    · exact congrArg (fun mm : Mm => mm.pageStack.capacity) hmm
    · rw [hfree, hsame]
      exact fun all hall => hall
    · exact fun q hq => Function.update_of_ne hq ..
  | some page =>
    obtain ⟨hfound, hne⟩ := Option.filter_eq_some_iff.mp (hplace.symm.trans hk)
    have hne : page ≠ 0 := by simpa using hne
    rw [hfound, Option.getD_some, if_neg hne] at hmm
    have hfree : u.free = page :: w.free := congrArg (fun mm : Mm => mm.pageStack.elements) hmm
    refine ⟨⟨hunmaps.sound, hmm ▸ hw.ready, ?_, ?_⟩, ?_, by simpa using hwalk, ?_, ?_, rfl, rfl⟩
    · rw [hfree, hheld]
      exact hw.exclusive.give hk
    · rw [hfree]
      intro a ha
      cases List.mem_cons.mp ha with
      | inl heq => exact heq ▸ ⟨hne, walk_aligned hfound⟩
      | inr ha => exact hw.address a ha
    · exact (congrArg (fun mm : Mm => mm.pageStack.capacity) hmm :)
    · rw [hfree, hheld]
      exact fun all hall => hall.give hk
    · exact fun q hq => Function.update_of_ne hq ..

theorem Shrunk.snoc {t : World} {addresses : List Nat} {a : Nat}
    (h : Shrunk translate new table w addresses t) (ha : Shrunk translate new table t [a] u) :
    Shrunk translate new table w (addresses ++ [a]) u where
  valid := ha.valid
  capacity := ha.capacity.trans h.capacity
  walk := by
    intro q v
    rw [ha.walk, h.walk]
    simp only [List.mem_append, List.mem_singleton, or_and_right, exists_or, exists_eq_left]
    by_cases hq : q = table
    · by_cases hlast : v / 4096 = a / 4096
      · simp [hq, hlast]
      · simp only [hq, hlast, and_false, or_false, if_false]
    · simp [hq]
  conserved := fun all hall => ha.conserved all (h.conserved all hall)
  tables := fun q hq => (ha.tables q hq).trans (h.tables q hq)
  bytes := ha.bytes.trans h.bytes
  mmu := ha.mmu.trans h.mmu

theorem World.withTable_self (w : World) (table : Nat) :
    w.withTable table (w.memory, w.tables table) = w := by
  unfold World.withTable
  rw [Function.update_eq_self]

theorem World.withTable_withTable (w : World) (table : Nat)
    (s t : Memory × TranslationTable 2048) :
    (w.withTable table s).withTable table t = w.withTable table t := by
  unfold World.withTable
  rw [Function.update_idem]

/-- `unmap_interval` never fails. -/
theorem unmapInterval_spec (heap : HeapPages translate new) (hw : Valid translate new w)
    (table start last : Nat) (hlast : last ≤ 0x80000000) (hstart : start % 4096 = 0) :
    ∃ u, w.unmapInterval translate table start last = .ok u ∧
      Shrunk translate new table w
        ((List.range ((last - start + 4095) / 4096)).map fun i => start + 4096 * i) u := by
  set addresses := (List.range ((last - start + 4095) / 4096)).map fun i => start + 4096 * i
    with haddresses
  have hrange : ∀ a ∈ addresses, a >>> 20 < 2048 := by
    intro a ha
    obtain ⟨i, hi, rfl⟩ := List.mem_map.mp ha
    rw [List.mem_range] at hi
    rw [Nat.shiftRight_eq_div_pow]
    omega
  have hloop := foldlM_except (f := fun s a => unmapPage translate s.1 s.2 a)
    (s := (w.memory, w.tables table)) (l := addresses)
    (I := fun done s => Shrunk translate new table w done (w.withTable table s))
    (E := fun _ => False) (by rw [World.withTable_self]; exact .nil hw)
    fun done a s ⟨rest, hsplit⟩ hdone => by
      obtain ⟨t, ht, hone⟩ := unmapPage_spec heap hdone.valid table
        (hrange a (by simp [hsplit]))
      have htable : (w.withTable table s).tables table = s.2 := Function.update_self ..
      rw [htable] at ht
      rw [World.withTable_withTable] at hone
      exact .inl ⟨t, ht, hdone.snoc hone⟩
  obtain ⟨s, hs, hshrunk⟩ | ⟨_, -, hfalse⟩ := hloop
  · refine ⟨w.withTable table s, ?_, hshrunk⟩
    unfold World.unmapInterval WagtailMmu.unmapInterval
    rw [hs]
    rfl
  · exact hfalse.elim

end WagtailProcess
