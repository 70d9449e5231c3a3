import Wagtail.HeapRuns
import Wagtail.Library.Coalesced

/-!
# The canonical form of the heap

Whatever the calls were, no two neighbouring blocks are unused as long as only
live blocks are freed. So the block list is determined by the live blocks alone,
and giving memory back undoes what allocating it did.
-/
namespace WagtailHeap

open FirstFit
open Runs (Run Guarded)

variable {m m' : Mm} {lo hi size k : Nat} {c : Cell} {l l₁ l₂ : List Cell} {s t : State}

/-! ## Block lists -/

/-- The block list as cells. -/
def cells (m : Mm) : List Cell := (blocks m).map (cellAt m)

/-- The block list with the headers. -/
def blockList (m : Mm) : List (Nat × Block) := (blocks m).map fun b => (b, m.header b)

/-- Where the memory of the blocks in use begins. -/
def liveMemory (m : Mm) : List Nat := (usedCells (cells m)).map (Cell.data sizeofBlock)

/-- An allocation as the call sites make it, or freeing null or a live block. -/
def Call.OnLive (s : State) : Call → Prop
  | .allocate size alignment => (Call.allocate size alignment).Allowed s
  | .free memory => memory = 0 ∨ memory ∈ liveMemory s.mm

instance (s : State) (c : Call) : Decidable (c.OnLive s) :=
  match c with
  | .allocate size alignment =>
    inferInstanceAs (Decidable ((Call.allocate size alignment).Allowed s))
  | .free memory => inferInstanceAs (Decidable (memory = 0 ∨ memory ∈ liveMemory s.mm))

def LiveStep : State → Call → State → Prop := Guarded (fun s c => c.OnLive s) Step

theorem Heap.cells (h : Heap lo hi m l) : cells m = l := h.cells_eq

/-- The cells determine every field of every header. -/
theorem Heap.header_eq (h : Heap lo hi m l) (h' : Heap lo hi m' l) (hc : c ∈ l) :
    m.header c.addr = m'.header c.addr := by
  have hsize := (h.size c hc).trans (h'.size c hc).symm
  have hused := (h.used c hc).trans (h'.used c hc).symm
  obtain ⟨l₁, l₂, rfl⟩ := List.append_of_mem hc
  have hnext := h.next_eq.trans h'.next_eq.symm
  have hprev := h.prev_eq.trans h'.prev_eq.symm
  cases hb : m.header c.addr
  cases hb' : m'.header c.addr
  simp only [hb, hb'] at hsize hused hnext hprev
  rw [hsize, hused, hnext, hprev]

theorem Heap.blockList_eq (h : Heap lo hi m l) (h' : Heap lo hi m' l) :
    blockList m = blockList m' := by
  simp only [blockList, blocks_eq h, blocks_eq h', List.map_map]
  apply List.map_congr_left
  intro c hc
  simp [h.header_eq h' hc]

/-- Heaps in one region with the same blocks in use are the same. -/
theorem Heap.ext_used {l' : List Cell} (h : Heap lo hi m l) (h' : Heap lo hi m' l')
    (hl : Coalesced l) (hl' : Coalesced l')
    (hused : ∀ e : Cell, e.used = true → (e ∈ l ↔ e ∈ l')) : blockList m = blockList m' := by
  obtain rfl := hl.ext hl' h.tiles h'.tiles (by decide) hused
  exact h.blockList_eq h'

/-! ## One call -/

/-- An allocation leaves a coalesced heap. -/
theorem Heap.allocate {align : Nat} (h : Heap lo hi m l) (hl : Coalesced l)
    (hallowed : (Call.allocate size align).Allowed s) :
    ∃ p m' l', allocate m size align = some (p, m') ∧ Heap lo hi m' l' ∧ Coalesced l' ∧
      (l' = l ∧ (p = 0 ∨ ∃ c ∈ l, c.used = false ∧ c.data sizeofBlock = p) ∨
        ∃ d ∈ l', d.used = true ∧ d.data sizeofBlock = p ∧
          ∀ e : Cell, e.used = true → (e ∈ l ↔ e ∈ l' ∧ e ≠ d)) := by
  obtain ⟨hpos, hmax, ⟨k, rfl⟩, halign⟩ := hallowed
  obtain ⟨hdvd, hfour, -, -⟩ := rounded_spec hpos
  have hspec := allocate_spec h hpos hmax halign
  split at hspec
  next p cs hfit =>
    obtain ⟨m', hcall, hm'⟩ := hspec
    obtain ⟨⟨⟨d, k₁, k₂, hbefore, hafter, hdata, -⟩, -⟩, hr', -⟩ :=
      firstFit_serves h.toRegion hfit hdvd (by omega)
    have hd : d ∈ usedCells cs := by simp [hafter]
    refine ⟨p, m', cs, hcall, hm', firstFit_coalesced hl hfit,
      .inr ⟨d, (mem_usedCells.mp hd).1, (mem_usedCells.mp hd).2, hdata, fun e he => ?_⟩⟩
    have hnd : (usedCells cs).Nodup := (List.Nodup.of_map _ hr'.nodup).filter _
    rw [hafter, List.nodup_middle, List.nodup_cons] at hnd
    have hmem : e ∈ cs ↔ e ∈ usedCells cs := by simp [mem_usedCells, he]
    have hmem' : e ∈ l ↔ e ∈ usedCells l := by simp [mem_usedCells, he]
    rw [hmem, hmem', hbefore, hafter]
    constructor
    · intro hin
      constructor
      · simp only [List.mem_append, List.mem_cons] at hin ⊢
        tauto
      · rintro rfl
        exact hnd.1 hin
    · rintro ⟨hin, hne⟩
      simp only [List.mem_append, List.mem_cons] at hin ⊢
      tauto
  next hnone =>
    refine ⟨_, m, l, hspec, h, hl, .inl ⟨rfl, ?_⟩⟩
    cases leftover_cases (rounded size) l 0 with
    | inl hnull => exact .inl hnull.2
    | inr hleft =>
      obtain ⟨c, hc, hu, hp⟩ := hleft
      exact .inr ⟨c, hc, hu.1, hp.symm⟩

/-- Freeing the data of a block leaves a coalesced heap without it. -/
theorem Heap.free (h : Heap lo hi m l) (hl : Coalesced l) (hc : c ∈ l) :
    ∃ m' l', free m (c.data sizeofBlock) = some m' ∧ Heap lo hi m' l' ∧ Coalesced l' ∧
      ∀ e : Cell, e.used = true → (e ∈ l' ↔ e ∈ l ∧ e ≠ c) := by
  have hnd : l.Nodup := List.Nodup.of_map _ h.toRegion.nodup
  obtain ⟨l₁, l₂, rfl⟩ := List.append_of_mem hc
  obtain ⟨m', hfree, hm'⟩ := free_spec h
  refine ⟨m', _, hfree, hm', release_coalesced hl, fun e he => ?_⟩
  have hmem : e ∈ release sizeofBlock l₁ c l₂ ↔ e ∈ usedCells (release sizeofBlock l₁ c l₂) := by
    simp [mem_usedCells, he]
  rw [List.nodup_middle, List.nodup_cons] at hnd
  rw [hmem, release_used, ← usedCells_append]
  simp only [mem_usedCells, he, and_true]
  constructor
  · intro hin
    constructor
    · simp only [List.mem_append, List.mem_cons] at hin ⊢
      tauto
    · rintro rfl
      exact hnd.1 hin
  · rintro ⟨hin, hne⟩
    simp only [List.mem_append, List.mem_cons] at hin ⊢
    tauto

/-- Freeing the result of an allocation brings the block list back. -/
theorem Heap.allocate_free {align : Nat} (h : Heap lo hi m l) (hl : Coalesced l)
    (hallowed : (Call.allocate size align).Allowed s) :
    ∃ p m₁ m₂, WagtailHeap.allocate m size align = some (p, m₁) ∧
      WagtailHeap.free m₁ p = some m₂ ∧ blockList m₂ = blockList m := by
  obtain ⟨p, m₁, l', hcall, h₁, hl', hcases⟩ := h.allocate hl hallowed
  cases hcases with
  | inl hsame =>
    obtain ⟨rfl, hp⟩ := hsame
    cases hp with
    | inl hnull =>
      subst hnull
      exact ⟨0, m₁, m₁, hcall, rfl, h₁.blockList_eq h⟩
    | inr hleft =>
      -- the search has left the memory of an unused block, whose neighbours are used
      obtain ⟨c, hc, hu, rfl⟩ := hleft
      obtain ⟨l₁, l₂, rfl⟩ := List.append_of_mem hc
      obtain ⟨m₂, hfree, h₂⟩ := free_spec h₁
      rw [release_unused hl hu] at h₂
      exact ⟨_, m₁, m₂, hcall, hfree, h₂.blockList_eq h⟩
  | inr hserved =>
    obtain ⟨d, hd, -, rfl, hbefore⟩ := hserved
    obtain ⟨m₂, l₂, hfree, h₂, hl₂, hafter⟩ := h₁.free hl' hd
    refine ⟨_, m₁, m₂, hcall, hfree, h₂.ext_used h hl₂ hl fun e he => ?_⟩
    rw [hafter e he, hbefore e he]

/-- Freeing all live blocks, in any order, leaves none. -/
theorem Heap.free_all {memory : List Nat} (h : Heap lo hi m l) (hl : Coalesced l)
    (hperm : memory.Perm ((usedCells l).map (Cell.data sizeofBlock))) :
    ∃ m' l', memory.foldlM WagtailHeap.free m = some m' ∧ Heap lo hi m' l' ∧ Coalesced l' ∧
      ∀ e ∈ l', e.used = false := by
  induction memory generalizing m l with
  | nil =>
    refine ⟨m, l, rfl, h, hl, fun e he => ?_⟩
    have hnil : usedCells l = [] := by simpa using hperm.symm.eq_nil
    by_contra hused
    have hmem : e ∈ usedCells l := mem_usedCells.mpr ⟨he, by simpa using hused⟩
    simp [hnil] at hmem
  | cons p memory ih =>
    have hp := hperm.mem_iff.mp (List.mem_cons_self ..)
    obtain ⟨c, hc, rfl⟩ := List.mem_map.mp hp
    obtain ⟨hcl, hused⟩ := mem_usedCells.mp hc
    obtain ⟨l₁, l₂, rfl⟩ := List.append_of_mem hcl
    obtain ⟨m₁, hfree, h₁⟩ := free_spec h
    have hrest : memory.Perm
        ((usedCells (release sizeofBlock l₁ c l₂)).map (Cell.data sizeofBlock)) := by
      rw [release_used]
      rw [usedCells_append, usedCells_cons_used hused, List.map_append, List.map_cons] at hperm
      rw [List.map_append]
      exact (hperm.trans List.perm_middle).cons_inv
    obtain ⟨m', l', hall, h', hl', hnone⟩ := ih h₁ (release_coalesced hl) hrest
    refine ⟨m', l', ?_, h', hl', hnone⟩
    rw [List.foldlM_cons, hfree]
    exact hall

/-! ## All runs -/

/-- The memory represents a coalesced list of cells. -/
def Tidy (lo hi : Nat) (m : Mm) : Prop := ∃ l, Heap lo hi m l ∧ Coalesced l

theorem booted_tidy (hb : Bootable m) :
    Tidy m.kernelDataEnd (initializeMm m).kernelDataspaceEnd (booted m).mm := by
  obtain ⟨l, h, ho⟩ := booted_sound hb
  have hlist : l = cells (initializeMm m) := h.cells.symm
  have hone : ∃ c, l = [c] := by
    have hfirst : l.map Cell.addr = [m.kernelDataEnd] := by
      rw [← blocks_eq h]
      have hpos : m.kernelDataEnd ≠ 0 := Nat.pos_iff_ne_zero.mp hb.positive
      rw [blocks, show maxBlocks = maxBlocks - 2 + 1 + 1 from rfl]
      simp [walk, booted, initializeMm, hpos]
    cases l with
    | nil => simp at hfirst
    | cons c l =>
      cases l with
      | nil => exact ⟨c, rfl⟩
      | cons d l => simp at hfirst
  obtain ⟨c, rfl⟩ := hone
  exact ⟨[c], h, coalesced_singleton c⟩

/-- Every call returns and keeps the heap coalesced. -/
theorem Tidy.step (hs : Tidy lo hi s.mm) {call : Call} (hlive : call.OnLive s) :
    ∃ t, Step s call t ∧ Tidy lo hi t.mm := by
  obtain ⟨l, h, hl⟩ := hs
  cases call with
  | allocate size align =>
    obtain ⟨p, m', l', hcall, h', hl', -⟩ := h.allocate (s := s) hl hlive
    refine ⟨⟨m', if p = 0 then s.live else ⟨p, size, align⟩ :: s.live⟩, ?_, l', h', hl'⟩
    rw [Step, perform, hcall]
    rfl
  | free memory =>
    cases hlive with
    | inl hnull =>
      subst hnull
      exact ⟨⟨s.mm, s.live.eraseP (·.pointer = 0)⟩, rfl, l, h, hl⟩
    | inr hmem =>
      rw [liveMemory, h.cells] at hmem
      obtain ⟨c, hc, rfl⟩ := List.mem_map.mp hmem
      obtain ⟨m', l', hfree, h', hl', -⟩ := h.free hl (mem_usedCells.mp hc).1
      refine ⟨⟨m', s.live.eraseP (·.pointer = c.data sizeofBlock)⟩, ?_, l', h', hl'⟩
      rw [Step, perform, hfree]
      rfl

theorem run_tidy (hb : Bootable m) {calls : List Call} (hrun : Run LiveStep (booted m) calls s) :
    Tidy m.kernelDataEnd (initializeMm m).kernelDataspaceEnd s.mm := by
  apply hrun.invariant (I := fun s => Tidy _ _ s.mm) (booted_tidy hb)
  rintro s call t hs ⟨hlive, hstep⟩
  obtain ⟨u, hu, htidy⟩ := hs.step hlive
  obtain rfl : u = t := Option.some.inj (hu.symm.trans hstep)
  exact htidy

/-- In every state that is reached, every call returns, no two neighbouring blocks are unused,
the blocks in use determine the block list, freeing the result of an allocation brings it
back, and freeing all live blocks in any order leaves the block that the heap began with. -/
theorem run_canonical (hb : Bootable m) {calls : List Call}
    (hrun : Run LiveStep (booted m) calls s) :
    (∀ call : Call, call.OnLive s → ∃ t, Step s call t) ∧
    Coalesced (cells s.mm) ∧
    (∀ calls' s', Run LiveStep (booted m) calls' s' →
      (∀ c : Cell, c.used = true → (c ∈ cells s.mm ↔ c ∈ cells s'.mm)) →
      blockList s.mm = blockList s'.mm) ∧
    (∀ size alignment, (Call.allocate size alignment).Allowed s →
      ∃ p m₁ m₂, allocate s.mm size alignment = some (p, m₁) ∧ free m₁ p = some m₂ ∧
        blockList m₂ = blockList s.mm) ∧
    ∀ memory : List Nat, memory.Perm (liveMemory s.mm) → ∃ m', memory.foldlM free s.mm = some m' ∧
      blockList m' = blockList (initializeMm m) := by
  have htidy := run_tidy hb hrun
  obtain ⟨l, h, hl⟩ := htidy
  refine ⟨?_, ?_, ?_, ?_, ?_⟩
  · intro call hlive
    obtain ⟨t, hstep, -⟩ := Tidy.step ⟨l, h, hl⟩ hlive
    exact ⟨t, hstep⟩
  · rw [h.cells]
    exact hl
  · intro calls' s' hrun' hused
    obtain ⟨l', h', hl'⟩ := run_tidy hb hrun'
    rw [h.cells, h'.cells] at hused
    exact h.ext_used h' hl hl' hused
  · intro size alignment hallowed
    exact h.allocate_free hl hallowed
  · intro memory hperm
    rw [liveMemory, h.cells] at hperm
    obtain ⟨m', l', hall, h', hl', hnone⟩ := h.free_all hl hperm
    obtain ⟨l₀, h₀, hl₀⟩ := booted_tidy hb
    have hnone₀ : ∀ e ∈ l₀, e.used = false := by
      obtain ⟨l₁, h₁, ho⟩ := booted_sound hb
      obtain rfl : l₀ = l₁ := h₀.cells.symm.trans h₁.cells
      intro e he
      by_contra hused
      have hmem := List.mem_map_of_mem (f := Cell.data sizeofBlock)
        (mem_usedCells.mpr ⟨he, by simpa using hused⟩)
      have hlive := ho.owners.mem_iff.mpr hmem
      simp [booted] at hlive
    refine ⟨m', hall, h'.ext_used h₀ hl' hl₀ fun e he => ?_⟩
    constructor
    · intro hin
      rw [hnone e hin] at he
      cases he
    · intro hin
      rw [hnone₀ e hin] at he
      cases he

def liveStep (s : State) (c : Call) : Option State := if c.OnLive s then perform s c else none

theorem liveStep_step {s t : State} {c : Call} (h : liveStep s c = some t) : LiveStep s c t := by
  rw [liveStep] at h
  split_ifs at h with hlive
  exact ⟨hlive, h⟩

def afterLive : State := (busyCalls.foldlM liveStep (booted layout)).get (by decide +kernel)

/-- One block in use is left between two that are not. -/
theorem busyCalls_canonical : Coalesced (cells afterLive.mm) ∧
    (cells afterLive.mm).map Cell.used = [false, true, false] :=
  have hrun : Run LiveStep (booted layout) busyCalls afterLive :=
    Run.of_foldlM (fun _ _ _ => liveStep_step) (Option.some_get _).symm
  ⟨(run_canonical layout_bootable hrun).2.1, by decide +kernel⟩

end WagtailHeap
