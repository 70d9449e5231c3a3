import Wagtail.Library.Tagged
import Wagtail.Mmu
import Wagtail.TranslationRuns

/-!
# Accesses through the TLB

The hardware keeps what its walks find and uses it again for accesses to the
same virtual page, for global entries under every ASID. The kernel empties the
TLB while it initialises the MMU and not again.
-/
namespace WagtailMmu

open Word (wrap)
open Runs (Run Guarded)
open Tagged (Entry Coherent)
open WagtailMm (Mm)

variable {translate new : Nat → Nat}

/-- The translation tables, the registers of the MMU and the TLB, from virtual to physical pages and
tagged by ASIDs. -/
structure Machine where
  tables : Tables Nat 2048
  mmu : Mmu
  tlb : List (Entry Nat Nat Nat)

/-- `mmu::clear_tlb`. -/
def Machine.clearTlb (s : Machine) : Machine := { s with tlb := [] }

/-- The end of `mmu::initialize`, before there is a table for user addresses. -/
def Machine.start (mm : Mm) : Machine :=
  Machine.clearTlb ⟨Tables.start mm, ⟨0, 0, 0, false, 0⟩, []⟩

/-- The current ASID. -/
def Machine.asid (s : Machine) : Nat := s.mmu.contextidr &&& 0xff

/-- The table that is active. -/
def Machine.active (s : Machine) : Nat := s.mmu.currentApplicationTable

/-- What a table maps an address to. -/
def Machine.maps (s : Machine) (table virt : Nat) : Option Nat :=
  walk s.tables.memory (s.tables.tables table) virt

/-- What the walk of the active table finds for a virtual page. -/
def Machine.page (s : Machine) (n : Nat) : Option Nat := s.maps s.active (4096 * n)

/-- A walk that finds a page leaves it in the TLB. It is global if the nG bit is clear. -/
def Machine.fill (s : Machine) (virt : Nat) : Machine :=
  match descriptor s.tables.memory (s.tables.tables s.active) virt with
  | some entry =>
    { s with tlb := ⟨virt / 4096, entry &&& 0xfffff000,
      if entry &&& L2.SmallPage.ng = 0 then none else some s.asid⟩ :: s.tlb }
  | none => s

/-- Calls of `map_page` and `unmap_page`, calls of `set_application_table`, and accesses with the
physical page that they reach. -/
inductive Event where
  | mapping (a : Mapping Nat)
  | switch (table pid : Nat)
  | access (virt : Nat) (result : Option Nat)

inductive Step (translate new : Nat → Nat) (s : Machine) : Event → Machine → Prop where
  | mapping (a : Mapping Nat) (t : Tables Nat 2048) :
      MappingStep translate new s.tables a t → Step translate new s (.mapping a) { s with tables := t }
  | switch (table pid : Nat) : Step translate new s (.switch table pid)
      { s with mmu := setApplicationTable (virtualToPhysical translate) s.mmu table pid }
  | hit (virt : Nat) (e : Entry Nat Nat Nat) : s.active ≠ 0 → virt >>> 20 < 2048 → e ∈ s.tlb →
      e.Hits s.asid → e.key = virt / 4096 → Step translate new s (.access virt (some e.value)) s
  | miss (virt : Nat) : s.active ≠ 0 → virt >>> 20 < 2048 →
      (∀ e ∈ s.tlb, e.Hits s.asid → e.key ≠ virt / 4096) →
      Step translate new s (.access virt (s.maps s.active virt)) (s.fill virt)

/-- Every access reaches the page that the active table maps. -/
def Machine.Right (translate new : Nat → Nat) (s : Machine) : Prop :=
  ∀ virt result t, Step translate new s (.access virt result) t → result = s.maps s.active virt

/-- What the TLB answers is in the active table. -/
def Machine.Fresh (s : Machine) : Prop := s.active ≠ 0 → Coherent s.tlb s.asid s.page

/-- A switch finds no entry that is global or has the next ASID and differs from the new table. A
call for the active table finds no entry that is global or has the current ASID for its page, apart
from one with the page that is mapped. -/
def Event.Meets (s : Machine) : Event → Prop
  | .mapping a => s.active ≠ 0 → a.target.1 = s.active →
      ∀ e ∈ s.tlb, e.Hits s.asid → e.key = a.target.2 / 4096 → a.page = some e.value
  | .switch table _ => table ≠ 0 →
      ∀ e ∈ s.tlb, e.Hits s.mmu.asid → s.maps table (4096 * e.key) = some e.value
  | .access _ _ => True

/-! ## Accesses -/

/-- The tables are sound, the next ASID has eight bits, and the TLB has user pages. -/
structure Machine.Valid (translate new : Nat → Nat) (s : Machine) : Prop where
  sound : Sound translate new s.tables.tables s.tables.memory
  asid : s.mmu.asid < 256
  keys : ∀ e ∈ s.tlb, e.key < 0x80000

variable {s t : Machine}

theorem Machine.page_eq (heap : HeapPages translate new) (hs : s.Valid translate new) (virt : Nat) :
    s.page (virt / 4096) = s.maps s.active virt :=
  hs.sound.walk_page heap (Nat.mul_div_cancel_left _ (by decide))

/-- Accesses reach the right pages exactly if the TLB has no entry that differs. -/
theorem Machine.right_iff (heap : HeapPages translate new) (hs : s.Valid translate new) :
    s.Right translate new ↔ s.Fresh := by
  constructor
  · intro hright hactive e he hhits
    have hkey := hs.keys e he
    have hpage : 4096 * e.key / 4096 = e.key := Nat.mul_div_cancel_left _ (by decide)
    have hrange : (4096 * e.key) >>> 20 < 2048 := by
      rw [Nat.shiftRight_eq_div_pow]
      omega
    exact (hright _ _ _ (.hit (4096 * e.key) e hactive hrange he hhits hpage.symm)).symm
  · intro hfresh virt result t hstep
    cases hstep with
    | hit virt e hactive hrange he hhits hkey =>
      rw [← s.page_eq heap hs, ← hkey]
      exact (hfresh hactive e he hhits).symm
    | miss virt hactive hrange hnone => rfl

/-- A walk leaves what it has found. -/
theorem Machine.fill_fresh (heap : HeapPages translate new) (hs : s.Valid translate new)
    (hfresh : s.Fresh) (virt : Nat) : (s.fill virt).Fresh := by
  intro hactive
  unfold Machine.fill at hactive ⊢
  cases hentry : descriptor s.tables.memory (s.tables.tables s.active) virt with
  | none =>
    rw [hentry] at hactive
    exact hfresh hactive
  | some entry =>
    rw [hentry] at hactive
    apply (hfresh hactive).fill
    change s.page (virt / 4096) = _
    rw [s.page_eq heap hs, Machine.maps, walk, hentry]
    rfl

/-! ## Steps -/

/-- The ASID after a switch is the one that was the next. -/
theorem setApplicationTable_asid (virtualToPhysical : Nat → Nat) {m : Mmu} (hm : m.asid < 256)
    {table : Nat} (htable : table ≠ 0) (pid : Nat) :
    (setApplicationTable virtualToPhysical m table pid).contextidr &&& 0xff = m.asid := by
  have hpid : wrap (pid <<< 8) &&& 0xff = 0 := by
    have hlow : wrap (pid <<< 8) &&& 0xff = wrap (pid <<< 8) % 256 :=
      Nat.and_two_pow_sub_one_eq_mod _ 8
    rw [hlow, wrap, Nat.shiftLeft_eq]
    omega
  have hasid : m.asid &&& 0xff = m.asid % 256 := Nat.and_two_pow_sub_one_eq_mod _ 8
  rw [setApplicationTable, if_pos htable, Nat.and_or_distrib_right, hpid, hasid, Nat.zero_or,
    Nat.mod_eq_of_lt hm]

theorem Step.valid (heap : HeapPages translate new) (hs : s.Valid translate new) {e : Event}
    (hstep : Step translate new s e t) : t.Valid translate new := by
  cases hstep with
  | mapping a u hmapping => exact ⟨(hmapping.walk heap hs.sound).1, hs.asid, hs.keys⟩
  | switch table pid =>
    refine ⟨hs.sound, ?_, hs.keys⟩
    simp only [setApplicationTable]
    split_ifs
    · exact Nat.mod_lt _ (by decide)
    · exact hs.asid
  | hit virt e hactive hrange he hhits hkey => exact hs
  | miss virt hactive hrange hnone =>
    unfold Machine.fill
    cases descriptor s.tables.memory (s.tables.tables s.active) virt with
    | none => exact hs
    | some entry =>
      refine ⟨hs.sound, hs.asid, fun e he => ?_⟩
      cases List.mem_cons.mp he with
      | inl heq =>
        rw [Nat.shiftRight_eq_div_pow] at hrange
        rw [heq]
        change virt / 4096 < 0x80000
        omega
      | inr hmem => exact hs.keys e hmem

/-- A step from a state that is right leads to one exactly if it meets the condition. -/
theorem Step.fresh_iff (heap : HeapPages translate new) (hs : s.Valid translate new)
    (hfresh : s.Fresh) {e : Event} (hstep : Step translate new s e t) :
    t.Fresh ↔ e.Meets s := by
  cases hstep with
  | mapping a u hmapping =>
    obtain ⟨-, hwalk⟩ := hmapping.walk heap hs.sound
    set t : Machine := { s with tables := u } with ht
    by_cases htable : a.target.1 = s.active
    · have hpage : t.page = Function.update s.page (a.target.2 / 4096) a.page := by
        funext n
        have hn : 4096 * n / 4096 = n := Nat.mul_div_cancel_left _ (by decide)
        change walk u.memory (u.tables s.active) (4096 * n) = _
        rw [hwalk, hn, Function.update_apply]
        simp only [htable, true_and, eq_comm]
        rfl
      constructor
      · intro hafter hactive _
        have hcoherent := hafter hactive
        rw [hpage] at hcoherent
        exact ((hfresh hactive).update_iff _ _).mp hcoherent
      · intro hmeets hactive
        rw [hpage]
        exact ((hfresh hactive).update_iff _ _).mpr (hmeets hactive htable)
    · have hpage : t.page = s.page := by
        funext n
        change walk u.memory (u.tables s.active) (4096 * n) = _
        rw [hwalk, if_neg fun hcond => htable hcond.1]
        rfl
      refine iff_of_true (fun hactive => ?_) fun hactive hsame => absurd hsame htable
      rw [hpage]
      exact hfresh hactive
  | switch table pid =>
    set t : Machine :=
      { s with mmu := setApplicationTable (virtualToPhysical translate) s.mmu table pid } with ht
    have hactive : t.active = table := setApplicationTable_current ..
    have hpage : ∀ n, t.page n = s.maps table (4096 * n) := by
      intro n
      rw [Machine.page, hactive]
      rfl
    have hasid : table ≠ 0 → t.asid = s.mmu.asid :=
      fun htable => setApplicationTable_asid _ hs.asid htable pid
    constructor
    · intro hafter htable e he hhits
      rw [← hpage]
      exact hafter (hactive ▸ htable) e he (hasid htable ▸ hhits)
    · intro hmeets hne e he hhits
      have htable : table ≠ 0 := hactive ▸ hne
      rw [hpage]
      exact hmeets htable e he (hasid htable ▸ hhits)
  | hit virt e hactive hrange he hhits hkey => exact iff_of_true hfresh trivial
  | miss virt hactive hrange hnone =>
    exact iff_of_true (Machine.fill_fresh heap hs hfresh virt) trivial

/-! ## Runs -/

theorem start_valid (mm : Mm) : (Machine.start mm).Valid translate new where
  sound := (refines_start mm).sound
  asid := Nat.zero_lt_succ 255
  keys := nofun

theorem start_fresh (mm : Mm) : (Machine.start mm).Fresh := fun _ => Tagged.coherent_nil

/-- In a run whose steps meet the condition every access reaches the page that the active table maps
at its address, and the next step has to meet it if that is to stay so. -/
theorem run_right (heap : HeapPages translate new) {mm : Mm} {events : List Event}
    (hrun : Run (Guarded (fun s e => Event.Meets s e) (Step translate new)) (Machine.start mm)
      events s) :
    s.Right translate new ∧
      ∀ e t, Step translate new s e t → (t.Right translate new ↔ Event.Meets s e) := by
  have h : s.Valid translate new ∧ s.Fresh := by
    refine hrun.invariant (I := fun s => s.Valid translate new ∧ s.Fresh)
      ⟨start_valid mm, start_fresh mm⟩ ?_
    rintro t e u ⟨hvalid, hfresh⟩ ⟨hmeets, hstep⟩
    exact ⟨hstep.valid heap hvalid, (hstep.fresh_iff heap hvalid hfresh).mpr hmeets⟩
  refine ⟨(Machine.right_iff heap h.1).mpr h.2, fun e t hstep => ?_⟩
  rw [Machine.right_iff heap (hstep.valid heap h.1)]
  exact hstep.fresh_iff heap h.1 h.2

/-! ## Two processes with a page at the same address -/

instance (s : Machine) (e : Event) : Decidable (e.Meets s) := by
  cases e with
  | mapping a => exact inferInstanceAs (Decidable (_ → _ → ∀ _ ∈ _, _))
  | switch table pid => exact inferInstanceAs (Decidable (_ → ∀ _ ∈ _, _))
  | access virt result => exact inferInstanceAs (Decidable True)

/-- The step of an event. -/
def machineStep (translate new : Nat → Nat) (s : Machine) : Event → Option Machine
  | .mapping a => (mappingStep translate new s.tables a).map fun t => { s with tables := t }
  | .switch table pid =>
    some { s with mmu := setApplicationTable (virtualToPhysical translate) s.mmu table pid }
  | .access virt result =>
    if s.active ≠ 0 ∧ virt >>> 20 < 2048 then
      match s.tlb.find? fun e => decide (e.Hits s.asid ∧ e.key = virt / 4096) with
      | some e => if result = some e.value then some s else none
      | none => if result = s.maps s.active virt then some (s.fill virt) else none
    else none

theorem machineStep_step {e : Event} (h : machineStep translate new s e = some t) :
    Step translate new s e t := by
  cases e with
  | mapping a =>
    obtain ⟨u, hu, rfl⟩ := Option.map_eq_some_iff.mp h
    exact .mapping a u (mappingStep_step hu)
  | switch table pid =>
    obtain rfl := Option.some.inj h
    exact .switch table pid
  | access virt result =>
    simp only [machineStep] at h
    by_cases hrange : s.active ≠ 0 ∧ virt >>> 20 < 2048
    · rw [if_pos hrange] at h
      cases hfind : s.tlb.find? fun e => decide (e.Hits s.asid ∧ e.key = virt / 4096) with
      | some e =>
        simp only [hfind] at h
        split_ifs at h with hresult
        obtain rfl := Option.some.inj h
        have hfound : e.Hits s.asid ∧ e.key = virt / 4096 := by
          simpa using List.find?_some hfind
        rw [hresult]
        exact .hit virt e hrange.1 hrange.2 (List.mem_of_find?_eq_some hfind) hfound.1 hfound.2
      | none =>
        simp only [hfind] at h
        split_ifs at h with hresult
        obtain rfl := Option.some.inj h
        rw [hresult]
        refine .miss virt hrange.1 hrange.2 fun e he hhits hkey => ?_
        exact absurd (List.find?_eq_none.mp hfind e he) (by simp [hhits, hkey])
    · rw [if_neg hrange] at h
      cases h

/-- Two processes have a page at `0x1000`, and the second one runs after the first. -/
def twoProcesses (notGlobal : Bool) (result : Nat) : List Event :=
  [.mapping (.map 0x80010000 0x80200000 0x1000 .rwRo .code notGlobal),
    .mapping (.map 0x80014000 0x80201000 0x1000 .rwRo .code notGlobal),
    .switch 0x80010000 1, .access 0x1000 (some 0x80200000),
    .switch 0x80014000 2, .access 0x1000 (some result)]

def bareMachine : Machine := .start ⟨true, 0x80800000, ⟨16, []⟩⟩

/-- With `not_global` set the entries differ in their ASIDs. -/
def separated : Machine :=
  ((twoProcesses true 0x80201000).foldlM (fun s e =>
    if Event.Meets s e then machineStep id supply s e else none) bareMachine).get (by decide +kernel)

theorem separated_right : separated.Right id supply ∧
    separated.maps 0x80014000 0x1000 = some 0x80201000 := by
  have hrun : Run (Guarded (fun s e => Event.Meets s e) (Step id supply)) bareMachine
      (twoProcesses true 0x80201000) separated := by
    refine Run.of_foldlM (fun s e t h => ?_) (Option.some_get _).symm
    split_ifs at h with hmeets
    exact ⟨hmeets, machineStep_step h⟩
  exact ⟨(run_right heapPages_supply hrun).1, by decide +kernel⟩

/-- As `setup_addrspace` maps them, the second process reaches the page of the first. -/
def mixed : Machine :=
  ((twoProcesses false 0x80200000).foldlM (machineStep id supply) bareMachine).get
    (by decide +kernel)

theorem mixed_stale : Run (Step id supply) bareMachine (twoProcesses false 0x80200000) mixed ∧
    mixed.maps 0x80014000 0x1000 = some 0x80201000 ∧ ¬ mixed.Right id supply := by
  have hrun : Run (Step id supply) bareMachine (twoProcesses false 0x80200000) mixed :=
    Run.of_foldlM (fun _ _ _ => machineStep_step) (Option.some_get _).symm
  refine ⟨hrun, by decide +kernel, fun hright => ?_⟩
  -- the entry of the first process is global
  have hpage := hright _ _ _ (.hit 0x1000 ⟨1, 0x80200000, none⟩ (by decide +kernel)
    (by decide +kernel) (by decide +kernel) (.inl rfl) (by decide +kernel))
  exact absurd hpage (by decide +kernel)

end WagtailMmu
