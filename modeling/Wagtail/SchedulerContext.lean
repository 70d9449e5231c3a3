import Wagtail.Library.Runs
import Wagtail.SchedulerObjects

/-!
# The execution context across scheduler steps

The current process, the register block of the context switch and the active
application table are set in different places. They stay in step with each other
as long as no timer interrupt that preempts a running process finds a blocked one
at the front of the queue: that interrupt gives up the current process, but the
register block of the preempted process stays in place, under another table.
-/
namespace WagtailScheduler

open WagtailKqueue
open WagtailMmu
open Runs (Run Guarded)

variable {virtualToPhysical : Nat → Nat} {k k' t : Kernel} {p q w : Nat} {proc : Process}

/-! ## Steps -/

/-- Events with the values that come from outside: a new object and its address, the
registers at the moment of the exception, the arguments of the system call. -/
inductive Event where
  | schedule (p : Nat) (proc : Process)
  | interrupt (registers : Registers)
  | exit (registers : Registers) (retval : Nat)
  | wait (registers : Registers) (pid statusLoc block : Nat) (memory : Waitblock)

/-- New objects get addresses that are not in use, and only a running process makes
system calls. -/
def Event.Enabled (k : Kernel) : Event → Prop
  | .schedule p proc => p ≠ 0 ∧ k.process p = none ∧ proc.Constructed
  | .interrupt _ => True
  | .exit _ _ => k.currentProcess ≠ 0
  | .wait _ _ _ block _ => k.currentProcess ≠ 0 ∧ block ≠ 0 ∧ k.waitblock block = none

def perform (virtualToPhysical : Nat → Nat) (k : Kernel) : Event → Option Kernel
  | .schedule p proc =>
    some (schedule { k with process := Function.update k.process p (some proc) } p)
  | .interrupt registers => do
    let k ← storeContext k registers
    interrupt virtualToPhysical k
  | .exit registers retval => do
    let k ← storeContext k registers
    syscallExit k retval
  | .wait registers pid statusLoc block memory => do
    let k ← storeContext k registers
    syscallWait k pid statusLoc block memory

/-- A kernel that has not halted performs an enabled event. -/
def Step (virtualToPhysical : Nat → Nat) (k : Kernel) (e : Event) (t : Kernel) : Prop :=
  k.halted = false ∧ e.Enabled k ∧ perform virtualToPhysical k e = some t

/-- The scheduler as its constructor leaves it, with the MMU in any state. -/
def initial (mmu : Mmu) : Kernel where
  processQueue := .empty
  currentProcess := 0
  registerBlock := 0
  nextPid := 2
  process _ := none
  waitblock _ := none
  mmu := mmu
  stores := []
  halted := false

/-- The register block is the current process's, and so is the active table. -/
structure Coherent (virtualToPhysical : Nat → Nat) (k : Kernel) : Prop where
  registerBlock : k.registerBlock = k.currentProcess
  table : k.currentProcess ≠ 0 → ∃ proc, k.process k.currentProcess = some proc ∧
    k.mmu.Active virtualToPhysical proc.addrspace.table

/-- The interrupt finds no blocked process at the front of the queue, or preempts nothing. -/
def Event.Unblocked (k : Kernel) : Event → Prop
  | .interrupt _ =>
    k.currentProcess = 0 ∨ ∀ q ∈ k.processQueue.elements.head?, isBlocking k q = some false
  | _ => True

/-! ## The invariant -/

structure Sound (virtualToPhysical : Nat → Nat) (k : Kernel) : Prop where
  objects : Objects k.links k.waitblock
  queued : ∀ p ∈ k.processQueue.elements, k.links p ≠ none
  nodup : k.processQueue.elements.Nodup
  notQueued : k.currentProcess ∉ k.processQueue.elements
  running : k.currentProcess ≠ 0 → ∃ l, k.links k.currentProcess = some l ∧ l.block = 0 ∧
    k.mmu.Active virtualToPhysical l.addrspace.table
  registerBlock : k.registerBlock = k.currentProcess

theorem Sound.coherent (h : Sound virtualToPhysical k) : Coherent virtualToPhysical k := by
  refine ⟨h.registerBlock, fun h0 => ?_⟩
  obtain ⟨l, hl, -, hactive⟩ := h.running h0
  obtain ⟨proc, hproc, rfl⟩ := exists_process hl
  exact ⟨proc, hproc, hactive⟩

theorem initial_sound (mmu : Mmu) : Sound virtualToPhysical (initial mmu) := by
  refine ⟨⟨rfl, ?_, ?_, ?_, ?_⟩, ?_, ?_, ?_, ?_, rfl⟩ <;>
    simp [initial, Kernel.links, Kqueue.empty]

/-- Registers and exit codes are outside of the invariant. -/
theorem Sound.same {process' : Nat → Option Process} (h : Sound virtualToPhysical k)
    (hlinks : Kernel.links { k with process := process' } = k.links) :
    Sound virtualToPhysical { k with process := process' } := by
  refine ⟨hlinks ▸ h.objects, ?_, h.nodup, h.notQueued, ?_, h.registerBlock⟩
  · rw [hlinks]
    exact h.queued
  · rw [hlinks]
    exact h.running

theorem Sound.storeContext (h : Sound virtualToPhysical k) (registers : Registers) :
    ∃ process', storeContext k registers = some { k with process := process' } ∧
      Kernel.links { k with process := process' } = k.links := by
  refine storeContext_spec ?_ registers
  intro h0
  rw [h.registerBlock] at h0 ⊢
  obtain ⟨l, hl, -⟩ := h.running h0
  simp [hl]

/-! ## Every step -/

theorem Sound.schedule (h : Sound virtualToPhysical k) (hp : p ≠ 0) (hnone : k.process p = none)
    (hproc : proc.Constructed) :
    Sound virtualToPhysical
      (schedule { k with process := Function.update k.process p (some proc) } p) := by
  set t := WagtailScheduler.schedule
    { k with process := Function.update k.process p (some proc) } p with ht
  have hlinks : t.links = Function.update k.links p (some proc.links) := links_update proc
  have hfree : k.links p = none := by rw [Kernel.links, hnone, Option.map_none]
  have hfront : p ∉ k.processQueue.elements := fun hmem => h.queued p hmem hfree
  have hcur : k.currentProcess ≠ p := by
    rintro he
    obtain ⟨l, hl, -⟩ := h.running (he ▸ hp)
    rw [he, hfree] at hl
    exact absurd hl (by simp)
  refine ⟨?_, ?_, ?_, ?_, ?_, h.registerBlock⟩
  · rw [hlinks]
    exact h.objects.add hp hfree hproc
  · intro q hq
    rw [hlinks]
    by_cases he : q = p
    · simp [he]
    · rw [Function.update_of_ne he]
      rcases List.mem_append.mp hq with hq | hq
      · exact h.queued q hq
      · exact absurd (List.mem_singleton.mp hq) he
  · refine List.nodup_append.mpr ⟨h.nodup, List.pairwise_singleton _ _, ?_⟩
    rintro a ha b hb rfl
    obtain rfl := List.mem_singleton.mp hb
    exact hfront ha
  · intro hmem
    rcases List.mem_append.mp hmem with hmem | hmem
    · exact h.notQueued hmem
    · exact hcur (List.mem_singleton.mp hmem)
  · intro h0
    obtain ⟨l, hl, hrest⟩ := h.running h0
    exact ⟨l, by rw [hlinks]; exact (Function.update_of_ne hcur _ _).trans hl, hrest⟩

theorem Sound.exit (h : Sound virtualToPhysical k) (hcur : k.currentProcess ≠ 0) (retval : Nat) :
    ∃ t, syscallExit k retval = some t ∧ Sound virtualToPhysical t := by
  obtain ⟨l, hl, -⟩ := h.running hcur
  obtain ⟨proc, hproc, -⟩ := exists_process hl
  obtain ⟨process', hmod, hlinks⟩ := modifyProcess_same hproc
    (f := fun proc => { proc with exitCode := retval }) rfl
  have hs := h.same hlinks
  obtain ⟨proc', hproc', -⟩ := exists_process (k := { k with process := process' })
    (p := k.currentProcess) (by rw [hlinks]; exact hl)
  obtain ⟨t, ht⟩ : ∃ t, deleteProcess { k with process := process' } k.currentProcess = some t :=
    ⟨_, deleteProcess_spec hs.objects hproc'⟩
  have ho := hs.objects.delete hproc' ht
  have heq := Option.some.inj (ht.symm.trans (deleteProcess_spec hs.objects hproc'))
  have hqueue : t.processQueue = k.processQueue := by rw [heq]
  refine ⟨{ t with currentProcess := 0, registerBlock := 0 }, ?_, ho, ?_, hqueue ▸ h.nodup, ?_,
    fun h0 => absurd rfl h0, rfl⟩
  · simp only [syscallExit, hmod, Option.bind_eq_bind, Option.bind_some, ht]
  · intro q hq
    have hmem : q ∈ k.processQueue.elements := hqueue ▸ hq
    have hne : q ≠ k.currentProcess := fun he => h.notQueued (he ▸ hmem)
    have hlive := hs.queued q hmem
    rw [heq]
    simpa [Kernel.links, Function.update_of_ne hne] using hlive
  · exact fun hmem => h.queued 0 (hqueue ▸ hmem) h.objects.null

theorem Sound.wait (pid statusLoc : Nat) (memory : Waitblock) (h : Sound virtualToPhysical k)
    (hcur : k.currentProcess ≠ 0) (hw : k.waitblock w = none) :
    ∃ t, syscallWait k pid statusLoc w memory = some t ∧ Sound virtualToPhysical t := by
  obtain ⟨l, hl, -⟩ := h.running hcur
  obtain ⟨proc, hproc, -⟩ := exists_process hl
  obtain ⟨t, ht, ho, hlive, hqueue, hcur', hreg, -⟩ := syscallWait_spec pid
    statusLoc memory h.objects hproc h.queued h.notQueued hw
  refine ⟨t, ht, ho, ?_, ?_, ?_, fun h0 => absurd hcur' h0, hreg.trans hcur'.symm⟩
  · rw [hqueue]
    intro p hp
    rw [ne_eq, hlive]
    rcases List.mem_append.mp hp with hp | hp
    · exact h.queued p hp
    · obtain rfl := List.mem_singleton.mp hp
      simp [hl]
  · rw [hqueue]
    refine List.nodup_append.mpr ⟨h.nodup, List.pairwise_singleton _ _, ?_⟩
    rintro a ha b hb rfl
    obtain rfl := List.mem_singleton.mp hb
    exact h.notQueued ha
  · rw [hqueue, hcur']
    intro hmem
    rcases List.mem_append.mp hmem with hmem | hmem
    · exact h.queued 0 hmem h.objects.null
    · exact hcur (List.mem_singleton.mp hmem).symm

/-- The queue that an interrupt takes its process from. -/
def candidates (k : Kernel) : List Nat :=
  k.processQueue.elements ++ if k.currentProcess = 0 then [] else [k.currentProcess]

theorem Sound.candidates (h : Sound virtualToPhysical k) :
    (candidates k).Nodup ∧ ∀ q ∈ candidates k, k.links q ≠ none := by
  by_cases h0 : k.currentProcess = 0
  · simpa [WagtailScheduler.candidates, h0] using ⟨h.nodup, h.queued⟩
  · obtain ⟨l, hl, -⟩ := h.running h0
    refine ⟨?_, ?_⟩
    · simp only [WagtailScheduler.candidates, if_neg h0]
      refine List.nodup_append.mpr ⟨h.nodup, List.pairwise_singleton _ _, ?_⟩
      rintro a ha b hb rfl
      obtain rfl := List.mem_singleton.mp hb
      exact h.notQueued ha
    · intro q hq
      simp only [WagtailScheduler.candidates, if_neg h0] at hq
      rcases List.mem_append.mp hq with hq | hq
      · exact h.queued q hq
      · obtain rfl := List.mem_singleton.mp hq
        simp [hl]

theorem isBlocking_eq (k : Kernel) (p : Nat) : isBlocking k p = (k.links p).bind fun l =>
    if l.block = 0 then some false else (k.waitblock l.block).bind fun b => some b.active := by
  simp only [isBlocking, Kernel.links, Option.bind_eq_bind]
  cases k.process p <;> rfl

theorem unblocked_same {process' : Nat → Option Process} (registers : Registers)
    (hlinks : Kernel.links { k with process := process' } = k.links) :
    (Event.interrupt registers).Unblocked { k with process := process' } ↔
      (Event.interrupt registers).Unblocked k := by
  have hsame : ∀ q, isBlocking { k with process := process' } q = isBlocking k q := by
    intro q
    rw [isBlocking_eq, isBlocking_eq, hlinks]
  simp only [Event.Unblocked, hsame]

theorem exists_isBlocking (h : Objects k.links k.waitblock) (hproc : k.process p = some proc) :
    ∃ blocking, isBlocking k p = some blocking := by
  simp only [isBlocking, hproc, Option.bind_eq_bind, Option.bind_some]
  by_cases h0 : proc.block = 0
  · exact ⟨false, if_pos h0⟩
  · obtain ⟨b, hb, -⟩ := h.block p _ (links_eq hproc) h0
    have hb' : k.waitblock proc.block = some b := hb
    exact ⟨b.active, by rw [if_neg h0, hb', Option.bind_some]⟩

theorem Sound.running_unblocked (h : Sound virtualToPhysical k) (h0 : k.currentProcess ≠ 0) :
    isBlocking k k.currentProcess = some false := by
  obtain ⟨l, hl, hblock, -⟩ := h.running h0
  obtain ⟨proc, hproc, rfl⟩ := exists_process hl
  have hblock' : proc.block = 0 := hblock
  simp only [isBlocking, hproc, Option.bind_eq_bind, Option.bind_some, if_pos hblock']

theorem interrupt_nil (virtualToPhysical : Nat → Nat) (h : candidates k = []) :
    k.currentProcess = 0 ∧ interrupt virtualToPhysical k = some { k with halted := true } := by
  have h0 : k.currentProcess = 0 := by
    by_contra hne
    simp [candidates, hne] at h
  have hqueue : k.processQueue.elements = [] := by simpa [candidates, h0] using h
  refine ⟨h0, ?_⟩
  simp only [interrupt, h0, ne_eq, not_true_eq_false, if_false, Kqueue.popFront, hqueue]

/-- The state in which the chosen process is looked at. -/
def chosen (virtualToPhysical : Nat → Nat) (k : Kernel) (next : Nat) (rest : Kqueue Nat)
    (addrspace : Addrspace) : Kernel :=
  { k with
    processQueue := rest
    currentProcess := next
    mmu := setApplicationTable virtualToPhysical k.mmu addrspace.table addrspace.pid }

theorem interrupt_cons (virtualToPhysical : Nat → Nat) {next : Nat} {rest : List Nat} (h : candidates k = next :: rest)
    (hproc : k.process next = some proc) :
    ∃ length, interrupt virtualToPhysical k = (isBlocking k next).bind fun blocking =>
      if blocking then
        some { (chosen virtualToPhysical k next ⟨rest, length⟩ proc.addrspace).pushBack next with
          currentProcess := 0 }
      else (releaseBlock (chosen virtualToPhysical k next ⟨rest, length⟩ proc.addrspace) next).bind
        fun k => some { k with registerBlock := next } := by
  by_cases h0 : k.currentProcess = 0
  · have hqueue : k.processQueue.elements = next :: rest := by simpa [candidates, h0] using h
    refine ⟨k.processQueue.length - 1, ?_⟩
    simp only [interrupt, h0, ne_eq, not_true_eq_false, if_false, Kqueue.popFront, hqueue, hproc,
      Option.bind_eq_bind, Option.bind_some, chosen, isBlocking]
  · have hqueue : k.processQueue.elements ++ [k.currentProcess] = next :: rest := by
      simpa [candidates, h0] using h
    refine ⟨k.processQueue.length + 1 - 1, ?_⟩
    simp only [interrupt, h0, ne_eq, not_false_eq_true, if_true, Kqueue.popFront, Kernel.pushBack,
      Kqueue.pushBack, hqueue, hproc, Option.bind_eq_bind, Option.bind_some, chosen, isBlocking]

/-- The process chosen to run: the queue keeps the others, and its table is active. -/
theorem Sound.run {next : Nat} {rest : List Nat} (length : Int) (h : Sound virtualToPhysical k)
    (hc : WagtailScheduler.candidates k = next :: rest) (hproc : k.process next = some proc)
    (hblocking : isBlocking k next = some false) :
    ∃ t, (releaseBlock (chosen virtualToPhysical k next ⟨rest, length⟩ proc.addrspace) next).bind
        (fun k => some { k with registerBlock := next }) = some t ∧ Sound virtualToPhysical t := by
  obtain ⟨hnd, hlive⟩ := h.candidates
  rw [hc] at hnd hlive
  obtain ⟨hnext, hnd⟩ := List.nodup_cons.mp hnd
  obtain ⟨process', waitblock', stores', hrelease, hlinks, ho⟩ := releaseBlock_spec
    (k := chosen virtualToPhysical k next ⟨rest, length⟩ proc.addrspace) h.objects hproc hblocking
  have hlinks' : (fun p => (process' p).map Process.links) =
      Function.update k.links next (some { proc.links with block := 0 }) := hlinks
  refine ⟨_, by rw [hrelease]; rfl, ?_, ?_, hnd, hnext, ?_, rfl⟩
  · show Objects (fun p => (process' p).map Process.links) waitblock'
    rw [hlinks']
    exact ho
  · intro q hq
    show (process' q).map Process.links ≠ none
    rw [congrFun hlinks' q]
    by_cases he : q = next
    · simp [he]
    · rw [Function.update_of_ne he]
      exact hlive q (List.mem_cons_of_mem _ hq)
  · intro _
    refine ⟨{ proc.links with block := 0 }, ?_, rfl, setApplicationTable_active ..⟩
    show (process' next).map Process.links = _
    rw [congrFun hlinks' next, Function.update_self]

/-- An interrupt halts an empty system, runs a process that is not blocked, or puts a
blocked one back and leaves the register block where it was. -/
theorem Sound.interrupt (registers : Registers) (h : Sound virtualToPhysical k) :
    ∃ t, interrupt virtualToPhysical k = some t ∧
      ((Event.interrupt registers).Unblocked k → Sound virtualToPhysical t) ∧
      (¬ (Event.interrupt registers).Unblocked k → ¬ Coherent virtualToPhysical t) := by
  cases hc : WagtailScheduler.candidates k with
  | nil =>
    obtain ⟨h0, hstep⟩ := interrupt_nil virtualToPhysical hc
    exact ⟨_, hstep, fun _ => ⟨h.objects, h.queued, h.nodup, h.notQueued, h.running,
      h.registerBlock⟩, fun hnot => absurd (Or.inl h0) hnot⟩
  | cons next rest =>
    obtain ⟨hnd, hlive⟩ := h.candidates
    rw [hc] at hnd hlive
    obtain ⟨l, hl⟩ := Option.ne_none_iff_exists'.mp (hlive next (by simp))
    obtain ⟨proc, hproc, -⟩ := exists_process hl
    obtain ⟨length, hstep⟩ := interrupt_cons virtualToPhysical hc hproc
    -- the front of the queue is chosen, or the only process, which is running
    have hhead : k.currentProcess = 0 ∨ k.processQueue.elements = [] ∧ next = k.currentProcess ∨
        k.processQueue.elements.head? = some next := by
      by_cases h0 : k.currentProcess = 0
      · exact Or.inl h0
      · have hqueue : k.processQueue.elements ++ [k.currentProcess] = next :: rest := by
          simpa [WagtailScheduler.candidates, h0] using hc
        cases hel : k.processQueue.elements with
        | nil => simp_all
        | cons q queue => simp_all
    obtain ⟨blocking, hblocking⟩ := exists_isBlocking h.objects hproc
    rw [hstep, hblocking, Option.bind_some]
    cases blocking with
    | false =>
      obtain ⟨t, ht, hsound⟩ := h.run length hc hproc hblocking
      refine ⟨t, by simpa using ht, fun _ => hsound, fun hnot => absurd ?_ hnot⟩
      rcases hhead with h0 | ⟨hqueue, -⟩ | hfront
      · exact Or.inl h0
      · exact Or.inr (by simp [hqueue])
      · refine Or.inr fun q hq => ?_
        rwa [← Option.some.inj (hfront.symm.trans hq)]
    | true =>
      refine ⟨_, rfl, ?_, ?_⟩
      · -- nothing was running, so the register block was null before and stays so
        intro hunblocked
        have h0 : k.currentProcess = 0 := by
          by_contra h0
          rcases hhead with h0' | ⟨-, rfl⟩ | hfront
          · exact h0 h0'
          · rw [h.running_unblocked h0] at hblocking
            simp at hblocking
          · have hfalse := hunblocked.resolve_left h0 next hfront
            rw [hblocking] at hfalse
            simp at hfalse
        have hmem : ∀ q ∈ rest ++ [next], q ∈ next :: rest := by
          intro q hq
          simp only [List.mem_append, List.mem_cons, List.not_mem_nil, or_false] at hq ⊢
          tauto
        refine ⟨h.objects, fun q hq => hlive q (hmem q hq), ?_, ?_, fun h => absurd rfl h, ?_⟩
        · exact (List.perm_append_singleton next rest).nodup_iff.mpr hnd
        · exact fun h0 => hlive 0 (hmem 0 h0) h.objects.null
        · exact h.registerBlock.trans h0
      · intro hnot hcoherent
        exact hnot (Or.inl (h.registerBlock.symm.trans hcoherent.registerBlock))

/-- What is enabled happens, and keeps the invariant unless it is an obstructed interrupt. -/
theorem Sound.step {e : Event} (h : Sound virtualToPhysical k) (he : e.Enabled k) :
    ∃ t, perform virtualToPhysical k e = some t ∧
      (e.Unblocked k → Sound virtualToPhysical t) ∧
      (¬ e.Unblocked k → ¬ Coherent virtualToPhysical t) := by
  cases e with
  | schedule p proc =>
    exact ⟨_, rfl, fun _ => h.schedule he.1 he.2.1 he.2.2, fun hnot => absurd trivial hnot⟩
  | interrupt registers =>
    obtain ⟨process', hstore, hlinks⟩ := h.storeContext registers
    obtain ⟨t, ht, hkeep, hbreak⟩ := (h.same hlinks).interrupt registers
    refine ⟨t, by simp only [perform, hstore, Option.bind_eq_bind, Option.bind_some, ht], ?_, ?_⟩
    · exact fun hunblocked => hkeep ((unblocked_same registers hlinks).mpr hunblocked)
    · exact fun hnot => hbreak fun hunblocked => hnot ((unblocked_same registers hlinks).mp hunblocked)
  | exit registers retval =>
    obtain ⟨process', hstore, hlinks⟩ := h.storeContext registers
    obtain ⟨t, ht, hsound⟩ := (h.same hlinks).exit he retval
    refine ⟨t, by simp only [perform, hstore, Option.bind_eq_bind, Option.bind_some, ht],
      fun _ => hsound, fun hnot => absurd trivial hnot⟩
  | wait registers pid statusLoc block memory =>
    obtain ⟨process', hstore, hlinks⟩ := h.storeContext registers
    obtain ⟨t, ht, hsound⟩ := (h.same hlinks).wait pid statusLoc memory
      he.1 he.2.2
    refine ⟨t, by simp only [perform, hstore, Option.bind_eq_bind, Option.bind_some, ht],
      fun _ => hsound, fun hnot => absurd trivial hnot⟩

/-! ## All runs -/

/-- Steps that no blocked process gets in the way of. -/
def UnblockedStep (virtualToPhysical : Nat → Nat) : Kernel → Event → Kernel → Prop :=
  Guarded (fun k e => e.Unblocked k) (Step virtualToPhysical)

theorem run_sound {mmu : Mmu} {events : List Event}
    (hrun : Run (UnblockedStep virtualToPhysical) (initial mmu) events k) :
    Sound virtualToPhysical k := by
  refine hrun.invariant (initial_sound mmu) ?_
  rintro t e u hsound ⟨hunblocked, -, he, hperform⟩
  obtain ⟨u', hu', hkeep, -⟩ := hsound.step he
  obtain rfl : u' = u := Option.some.inj (hu'.symm.trans hperform)
  exact hkeep hunblocked

/-- Runs in which no blocked process is found at the front of the queue while another one is
preempted are coherent throughout, whatever is enabled happens, and the next state is
coherent exactly when that step is not such an interrupt. -/
theorem run_coherent {mmu : Mmu} {events : List Event}
    (hrun : Run (UnblockedStep virtualToPhysical) (initial mmu) events k) :
    Coherent virtualToPhysical k ∧
      ∀ e : Event, k.halted = false → e.Enabled k → ∃ t, Step virtualToPhysical k e t ∧
        (Coherent virtualToPhysical t ↔ e.Unblocked k) := by
  have hsound := run_sound hrun
  refine ⟨hsound.coherent, fun e hhalted he => ?_⟩
  obtain ⟨t, ht, hkeep, hbreak⟩ := hsound.step he
  refine ⟨t, ⟨hhalted, he, ht⟩, fun hcoherent => ?_, fun hunblocked => (hkeep hunblocked).coherent⟩
  by_contra hnot
  exact hbreak hnot hcoherent

/-! ## A preempted process that keeps the register block -/

instance (k : Kernel) (e : Event) : Decidable (e.Enabled k) :=
  match e with
  | .schedule _ _ => inferInstanceAs (Decidable (_ ∧ _ ∧ _ ∧ _ ∧ _ ∧ _))
  | .interrupt _ => inferInstanceAs (Decidable True)
  | .exit _ _ => inferInstanceAs (Decidable (_ ≠ _))
  | .wait _ _ _ _ _ => inferInstanceAs (Decidable (_ ∧ _ ∧ _))

instance (k : Kernel) (e : Event) : Decidable (e.Unblocked k) :=
  match e with
  | .interrupt _ => inferInstanceAs (Decidable (_ ∨ ∀ q ∈ k.processQueue.elements.head?, _))
  | .schedule _ _ => inferInstanceAs (Decidable True)
  | .exit _ _ => inferInstanceAs (Decidable True)
  | .wait _ _ _ _ _ => inferInstanceAs (Decidable True)

/-- The steps of `UnblockedStep`, as a function. -/
def unblockedStep (k : Kernel) (e : Event) : Option Kernel :=
  if e.Unblocked k ∧ k.halted = false ∧ e.Enabled k then perform id k e else none

theorem unblockedStep_sound (k : Kernel) (e : Event) (t : Kernel) (h : unblockedStep k e = some t) :
    UnblockedStep id k e t := by
  unfold unblockedStep at h
  split at h
  next he => exact ⟨he.1, he.2.1, he.2.2, h⟩
  next => simp at h

/-- A kernel thread as its constructor leaves it. -/
def newThread (pid : Nat) : Process where
  pid := pid
  exitCode := 0
  block := 0
  children := .empty
  terminationListeners := .empty
  childTerminationListener := 0
  registers := ⟨fun _ => 0, 0x3f, 0x81000004⟩
  addrspace := ⟨0, 0⟩

def interrupted : Registers := ⟨fun _ => 0, 0x3f, 0x81000100⟩

def bootMmu : Mmu := ⟨0, 0, 0, true, 0⟩

/-- Thread 1 runs and waits for thread 2, which runs next. -/
def waiting : List Event :=
  [.schedule 0x1000 (newThread 1), .schedule 0x2000 (newThread 2), .interrupt interrupted,
    .wait interrupted 2 0 0x3000 ⟨0, 0, 0, 0, 0, false⟩, .interrupt interrupted]

def afterWait : Kernel := (waiting.foldlM unblockedStep (initial bootMmu)).get (by decide +kernel)

theorem waiting_run : Run (UnblockedStep id) (initial bootMmu) waiting afterWait :=
  Run.of_foldlM unblockedStep_sound (Option.some_get _).symm

theorem waiting_coherent : Coherent id afterWait := (run_coherent waiting_run).1

/-- The next interrupt finds thread 1 at the front of the queue, still blocked. -/
def preempted : Kernel := (perform id afterWait (.interrupt interrupted)).get (by decide +kernel)

/-- Thread 2 keeps the register block, and nobody is the current process. -/
theorem preempted_incoherent :
    Run (Step id) (initial bootMmu) (waiting ++ [.interrupt interrupted]) preempted ∧
      preempted.registerBlock = 0x2000 ∧ preempted.currentProcess = 0 ∧
      ¬ Coherent id preempted := by
  have hregisters : preempted.registerBlock = 0x2000 := by decide +kernel
  have hcurrent : preempted.currentProcess = 0 := by decide +kernel
  refine ⟨waiting_run.unguard.snoc ⟨by decide +kernel, trivial, (Option.some_get _).symm⟩,
    hregisters, hcurrent, fun hcoherent => ?_⟩
  have := hcoherent.registerBlock
  rw [hregisters, hcurrent] at this
  exact absurd this (by decide)

end WagtailScheduler
