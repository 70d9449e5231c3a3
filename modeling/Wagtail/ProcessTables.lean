import Mathlib.Data.Finset.Card
import Wagtail.ProcessMemory

/-!
# The page tables of an address space

Every megabyte of an address space takes one page table from the heap. Pages can
be mapped in an empty translation table exactly if the heap provides as many as
there are megabytes.
-/
namespace WagtailProcess

open WagtailMm (Mm)
open WagtailMmu
open Runs (foldlM_snoc)

variable {translate new : Nat → Nat} {w u : World} {table : Nat} {m m' : Memory} {n : Nat}

/-- The physical address of one of the next page tables. -/
def nextTable (translate new : Nat → Nat) (m : Memory) (k : Nat) : Nat :=
  virtualToPhysical translate (new (m.allocations + k))

/-- The heap has memory for so many page tables. -/
def Provides (translate new : Nat → Nat) (m : Memory) (n : Nat) : Prop :=
  ∀ k < n, m.pageTables (nextTable translate new m k) = none ∧
    ∀ j < k, nextTable translate new m k ≠ nextTable translate new m j

/-- The megabytes in which the pages lie. -/
def megabytes (rs : List Request) : Nat := (rs.map fun r => r.address >>> 20).toFinset.card

/-- So many page tables have been allocated. -/
structure Taken (translate new : Nat → Nat) (m : Memory) (n : Nat) (m' : Memory) : Prop where
  allocations : m'.allocations = m.allocations + n
  free : ∀ p, m'.pageTables p = none ↔
    m.pageTables p = none ∧ ∀ k < n, p ≠ nextTable translate new m k

theorem Taken.zero (m : Memory) : Taken translate new m 0 m := ⟨rfl, by simp⟩

theorem Taken.nextTable (h : Taken translate new m n m') :
    nextTable translate new m' 0 = nextTable translate new m n := by
  rw [WagtailProcess.nextTable, h.allocations, Nat.add_zero]
  rfl

theorem Provides.succ : Provides translate new m (n + 1) ↔ Provides translate new m n ∧
    m.pageTables (nextTable translate new m n) = none ∧
      ∀ j < n, nextTable translate new m n ≠ nextTable translate new m j := by
  constructor
  · exact fun h => ⟨fun k hk => h k (Nat.lt_succ_of_lt hk), h n (Nat.lt_succ_self n)⟩
  · rintro ⟨hbefore, hlast⟩ k hk
    rcases Nat.lt_succ_iff_lt_or_eq.mp hk with hk | rfl
    · exact hbefore k hk
    · exact hlast

/-- There is one page table more if and only if the next one is not in use. -/
theorem Taken.provides (h : Taken translate new m n m') (hn : Provides translate new m n) :
    Provides translate new m (n + 1) ↔
      m'.pageTables (WagtailProcess.nextTable translate new m' 0) = none := by
  rw [h.nextTable, h.free, Provides.succ]
  exact and_iff_right hn

theorem Taken.trans {m'' : Memory} {k : Nat} (hk : k ≤ 1) (h : Taken translate new m n m')
    (hnext : Taken translate new m' k m'') : Taken translate new m (n + k) m'' := by
  refine ⟨by rw [hnext.allocations, h.allocations, Nat.add_assoc], fun p => ?_⟩
  rw [hnext.free, h.free, and_assoc]
  refine and_congr_right fun _ => ⟨fun ⟨hbefore, hlast⟩ j hj => ?_, fun hall => ⟨?_, ?_⟩⟩
  · rcases Nat.lt_or_ge j n with hlt | hge
    · exact hbefore j hlt
    · obtain rfl : j = n := by omega
      rw [← h.nextTable]
      exact hlast 0 (by omega)
  · exact fun j hj => hall j (by omega)
  · intro j hj
    obtain rfl : j = 0 := by omega
    rw [h.nextTable]
    exact hall n (by omega)

/-! ## One page -/

section

variable {r : Request}

/-- Stores to a page table that is in use do not change which ones are. -/
theorem write_free {pt : Nat} {old contents : PageTable}
    (h : m.pageTables (virtualToPhysical translate pt) = some old) (p : Nat) :
    (m.write translate pt contents).pageTables p = none ↔ m.pageTables p = none := by
  by_cases hp : p = virtualToPhysical translate pt
  · simp [WagtailMmu.Memory.write, hp, h]
  · simp [WagtailMmu.Memory.write, Function.update_of_ne hp]

/-- In a megabyte that has a page table, none is allocated. -/
theorem mapNew_present (heap : HeapPages translate new) (hw : Valid translate new w)
    (hv : r.address >>> 20 < 2048) (hne : (w.tables table).table ⟨r.address >>> 20, hv⟩ ≠ 0) :
    ∃ u, mapNew translate new table w r = .ok u ∧ Taken translate new w.memory 0 u.memory := by
  obtain ⟨n, pt, -, hpt, hentry, hlive, -⟩ := hw.sound.present heap hne
  obtain ⟨-, -, htype⟩ := tableEntry (heap.physical_aligned n) (virtualToPhysical_lt (new n))
  set m₀ : Memory := { w.memory with mm := w.memory.mm.allocatePage.2 } with hm₀
  have hlive : m₀.pageTables (virtualToPhysical translate
      ((w.tables table).pageTable ⟨r.address >>> 20, hv⟩)) = some pt := by
    rw [hpt]
    exact hlive
  rw [mapNew_eq, ← hm₀, mapPage_present hv (hentry ▸ htype) hlive]
  refine ⟨_, rfl, rfl, fun p => (write_free hlive p).trans ?_⟩
  simp [hm₀]

/-- In a megabyte without one, the next one is taken if it is not in use. -/
theorem mapNew_absent (translate new : Nat → Nat) (hv : r.address >>> 20 < 2048)
    (hzero : (w.tables table).table ⟨r.address >>> 20, hv⟩ = 0) :
    w.memory.pageTables (nextTable translate new w.memory 0) = none ∧
      (∃ u, mapNew translate new table w r = .ok u ∧ Taken translate new w.memory 1 u.memory) ∨
    w.memory.pageTables (nextTable translate new w.memory 0) ≠ none ∧
      mapNew translate new table w r = .error .allocation := by
  set m₀ : Memory := { w.memory with mm := w.memory.mm.allocatePage.2 } with hm₀
  cases hnext : w.memory.pageTables (nextTable translate new w.memory 0) with
  | none =>
    have hnext : m₀.pageTables (virtualToPhysical translate (new m₀.allocations)) = none := hnext
    rw [mapNew_eq, ← hm₀, mapPage_new hv hzero hnext]
    refine .inl ⟨rfl, _, rfl, rfl, fun p => ?_⟩
    change Function.update w.memory.pageTables (nextTable translate new w.memory 0) _ p = none ↔ _
    by_cases hp : p = nextTable translate new w.memory 0
    · simp [hp]
    · simp [hp]
  | some pt =>
    have hnext : m₀.pageTables (virtualToPhysical translate (new m₀.allocations)) = some pt :=
      hnext
    rw [mapNew_eq, ← hm₀, mapPage_full hv hzero hnext]
    exact .inr ⟨nofun, rfl⟩

end

/-! ## All pages -/

theorem megabytes_snoc {rs : List Request} {r : Request} : megabytes (rs ++ [r]) =
    megabytes rs + if ∃ r' ∈ rs, r'.address >>> 20 = r.address >>> 20 then 0 else 1 := by
  have hset : ((rs ++ [r]).map fun r => r.address >>> 20).toFinset =
      insert (r.address >>> 20) (rs.map fun r => r.address >>> 20).toFinset := by
    ext n
    simp [eq_comm]
  rw [megabytes, hset]
  split_ifs with hseen
  · rw [Finset.insert_eq_of_mem (by simpa using hseen)]
    rfl
  · rw [Finset.card_insert_of_notMem (by simpa using hseen)]
    rfl

/-- An empty table after some requests has an entry for the megabyte of each of them. -/
theorem Grown.entry_iff (heap : HeapPages translate new) {rs : List Request} {i : Fin 2048}
    (h : Grown translate new table w rs u) (hnone : ∀ v, w.walk table v = none) :
    (u.tables table).table i ≠ 0 ↔ ∃ r ∈ rs, r.address >>> 20 = i := by
  rw [h.valid.sound.entry_iff heap]
  constructor
  · rintro ⟨v, hv, hwalk⟩
    obtain ⟨r, hr, hpage⟩ := (h.domain hnone v).mp hwalk
    refine ⟨r, hr, ?_⟩
    rw [← hv]
    exact ((page_eq_iff r.address v).mp hpage).1
  · rintro ⟨r, hr, hi⟩
    exact ⟨r.address, hi, (h.domain hnone _).mpr ⟨r, hr, rfl⟩⟩

/-- The requests are met in an empty table if and only if the heap provides a page table for each
of their megabytes. -/
theorem mapAll_provides (heap : HeapPages translate new) (hw : Valid translate new w)
    (hnone : ∀ v, w.walk table v = none) {rs : List Request} (hrange : InRange rs) :
    Provides translate new w.memory (megabytes rs) ∧
      (∃ u, rs.foldlM (mapNew translate new table) w = .ok u ∧
        Grown translate new table w rs u ∧
        Taken translate new w.memory (megabytes rs) u.memory) ∨
    ¬Provides translate new w.memory (megabytes rs) ∧
      rs.foldlM (mapNew translate new table) w = .error .allocation := by
  induction rs using List.reverseRecOn with
  | nil => exact .inl ⟨nofun, w, rfl, .nil hw, .zero _⟩
  | append_singleton rs r ih =>
    have hv : r.address >>> 20 < 2048 := hrange r (by simp)
    rw [foldlM_snoc, megabytes_snoc]
    obtain ⟨hprovides, t, ht, hgrown, htaken⟩ | ⟨hnot, herror⟩ :=
      ih fun r' hr' => hrange r' (List.mem_append_left _ hr')
    · rw [ht]
      by_cases hseen : ∃ r' ∈ rs, r'.address >>> 20 = r.address >>> 20
      · have hentry := (hgrown.entry_iff heap hnone (i := ⟨r.address >>> 20, hv⟩)).mpr hseen
        obtain ⟨u, hu, hnext⟩ := mapNew_present heap hgrown.valid hv hentry
        obtain ⟨u', hu', hnew⟩ | herror := mapNew_spec heap hgrown.valid hv
        · obtain rfl := Except.ok.inj (hu.symm.trans hu')
          rw [if_pos hseen]
          exact .inl ⟨hprovides, u, hu, hgrown.snoc hnew, htaken.trans (by decide) hnext⟩
        · cases hu.symm.trans herror
      · have hentry : (t.tables table).table ⟨r.address >>> 20, hv⟩ = 0 := by
          by_contra hne
          exact hseen ((hgrown.entry_iff heap hnone).mp hne)
        rw [if_neg hseen, htaken.provides hprovides]
        obtain ⟨hfree, u, hu, hnext⟩ | ⟨hused, herror⟩ :=
          mapNew_absent translate new hv hentry
        · obtain ⟨u', hu', hnew⟩ | herror := mapNew_spec heap hgrown.valid hv
          · obtain rfl := Except.ok.inj (hu.symm.trans hu')
            exact .inl ⟨hfree, u, hu, hgrown.snoc hnew, htaken.trans (by decide) hnext⟩
          · cases hu.symm.trans herror
        · exact .inr ⟨hused, herror⟩
    · rw [herror]
      refine .inr ⟨fun hmore => hnot fun k hk => hmore k (by omega), rfl⟩

end WagtailProcess
