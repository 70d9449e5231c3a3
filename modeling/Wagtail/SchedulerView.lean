import Wagtail.SchedulerFamily

/-!
# What a scheduler step can do

The kernel without registers and exit codes, and one case for each thing that an
action can do to it. Every step of a kernel whose pointers fit together is one of
these cases, and only the exit of a process whose parent is gone is a fault.
-/
namespace WagtailScheduler

open WagtailKqueue
open WagtailMmu

variable {virtualToPhysical : Nat → Nat} {k k₁ t : Kernel} {p q w c : Nat} {proc : Process}
  {b : Waitblock} {P : Nat → Option Process}

/-! ## The view of a kernel -/

/-- The processes without registers and exit codes. -/
def bareOf (P : Nat → Option Process) (p : Nat) : Option Process := (P p).map Process.bare

structure View where
  process : Nat → Option Process
  waitblock : Nat → Option Waitblock
  queue : List Nat
  currentProcess : Nat
  registerBlock : Nat
  table : Nat
  stores : List Store
  halted : Bool

def Kernel.view (k : Kernel) : View where
  process := bareOf k.process
  waitblock := k.waitblock
  queue := k.processQueue.elements
  currentProcess := k.currentProcess
  registerBlock := k.registerBlock
  table := k.mmu.currentApplicationTable
  stores := k.stores
  halted := k.halted

/-- The queue that an interrupt takes its process from. -/
def View.candidates (s : View) : List Nat :=
  s.queue ++ if s.currentProcess = 0 then [] else [s.currentProcess]

theorem view_candidates (k : Kernel) : k.view.candidates = candidates k := rfl

theorem bareOf_some (h : P p = some proc) : bareOf P p = some proc.bare := by
  rw [bareOf, h, Option.map_some]

theorem exists_bareOf {bare : Process} (h : bareOf P p = some bare) :
    ∃ proc, P p = some proc ∧ proc.bare = bare := Option.map_eq_some_iff.mp h

theorem bareOf_none : bareOf P p = none ↔ P p = none := Option.map_eq_none_iff

theorem bareOf_update (P : Nat → Option Process) (p : Nat) (proc : Option Process) :
    bareOf (Function.update P p proc) =
      Function.update (bareOf P) p (proc.map Process.bare) := by
  funext q
  by_cases hq : q = p
  · subst hq
    simp [bareOf]
  · simp [bareOf, Function.update_of_ne hq]

/-- A process is changed in its registers and its exit code only. -/
theorem bareOf_same (h : P p = some proc) (proc' : Process) (hbare : proc'.bare = proc.bare) :
    bareOf (Function.update P p (some proc')) = bareOf P := by
  rw [bareOf_update, Option.map_some, hbare, Function.update_eq_self_iff]
  exact (bareOf_some h).symm

theorem storeContext_view (h : k.registerBlock ≠ 0 → k.process k.registerBlock ≠ none)
    (registers : Registers) : ∃ k₁, storeContext k registers = some k₁ ∧ k₁.view = k.view ∧
      k₁ = { k with process := k₁.process } := by
  by_cases h0 : k.registerBlock = 0
  · exact ⟨k, by rw [storeContext, if_pos h0], rfl, rfl⟩
  · obtain ⟨proc, hproc⟩ := Option.ne_none_iff_exists'.mp (h h0)
    refine ⟨_, by rw [storeContext, if_neg h0, modifyProcess_eq hproc], ?_, rfl⟩
    simp only [Kernel.view, bareOf_same hproc { proc with registers } rfl]

/-! ## Terminations -/

/-- The listeners have been notified of the termination of `p`. -/
structure Notified (k t : Kernel) (p : Nat) (proc : Process) (listeners : List Listener) :
    Prop where
  rest : t = { k with process := t.process, waitblock := t.waitblock }
  parent : ∀ q, .process q ∈ listeners → ∃ parent, k.process q = some parent ∧
    t.process q = some (parent.removeChild p)
  other : ∀ q, .process q ∉ listeners → t.process q = k.process q
  told : ∀ w, Tells k.process listeners w →
    t.waitblock w = (k.waitblock w).map (·.processTerminated proc)
  untold : ∀ w, ¬ Tells k.process listeners w → t.waitblock w = k.waitblock w

theorem tells_cons {e : Listener} {listeners : List Listener} :
    Tells P (e :: listeners) w ↔ Tells P [e] w ∨ Tells P listeners w := by
  simp only [Tells, List.mem_cons, List.not_mem_nil, or_false]
  constructor
  · rintro ((h | h) | ⟨c, parent, h | h, hrest⟩)
    · exact .inl (.inl h)
    · exact .inr (.inl h)
    · exact .inl (.inr ⟨c, parent, h, hrest⟩)
    · exact .inr (.inr ⟨c, parent, h, hrest⟩)
  · rintro ((h | ⟨c, parent, h, hrest⟩) | (h | ⟨c, parent, h, hrest⟩))
    · exact .inl (.inl h)
    · exact .inr ⟨c, parent, .inl h, hrest⟩
    · exact .inl (.inr h)
    · exact .inr ⟨c, parent, .inr h, hrest⟩

theorem tells_waitblock {v : Nat} : Tells P [.waitblock v] w ↔ w = v := by
  simp [Tells]

theorem tells_process {parent : Process} (hq : P q = some parent) :
    Tells P [.process q] w ↔ parent.childTerminationListener = w ∧ w ≠ 0 := by
  simp [Tells, hq]

theorem notified_nil (k : Kernel) (p : Nat) (proc : Process) : Notified k k p proc [] where
  rest := rfl
  parent := by simp
  other := by simp
  told := by simp [Tells]
  untold := by simp

/-- A block is told. -/
theorem notified_waitblock (hb : k.waitblock w = some b) (p : Nat) (proc : Process) :
    Notified k { k with
      waitblock := Function.update k.waitblock w (some (b.processTerminated proc)) }
      p proc [.waitblock w] where
  rest := rfl
  parent := by simp
  other := by simp
  told := by
    intro v hv
    rw [tells_waitblock] at hv
    subst hv
    simp [hb]
  untold := by
    intro v hv
    rw [tells_waitblock] at hv
    simp [hv]

/-- A parent is told, with the block that listens for its children. -/
theorem notified_process {parent : Process} (hq : k.process q = some parent) (p : Nat)
    (proc : Process) (waitblock : Nat → Option Waitblock)
    (htold : parent.childTerminationListener ≠ 0 → waitblock parent.childTerminationListener =
      (k.waitblock parent.childTerminationListener).map (·.processTerminated proc))
    (huntold : ∀ w, ¬ (parent.childTerminationListener = w ∧ w ≠ 0) →
      waitblock w = k.waitblock w) :
    Notified k { k with
      process := Function.update k.process q (some (parent.removeChild p))
      waitblock } p proc [.process q] where
  rest := rfl
  parent := by
    intro r hr
    obtain rfl : r = q := by simpa using hr
    exact ⟨parent, hq, Function.update_self ..⟩
  other := by
    intro r hr
    have hrq : r ≠ q := by simpa using hr
    simp [hrq]
  told := by
    intro w hw
    rw [tells_process hq] at hw
    obtain ⟨rfl, hw⟩ := hw
    exact htold hw
  untold := by
    intro w hw
    rw [tells_process hq] at hw
    exact huntold w hw

/-- One listener: it faults only if what it reaches for is gone. -/
theorem processTerminated_notified (hproc : k.process p = some proc) (e : Listener) :
    (∀ t, processTerminated k p e = some t → Notified k t p proc [e]) ∧
      ((∀ w, e = .waitblock w → k.waitblock w ≠ none) →
        (∀ q, e = .process q → ∃ parent, k.process q = some parent ∧
          (parent.childTerminationListener ≠ 0 →
            k.waitblock parent.childTerminationListener ≠ none)) →
        ∃ t, processTerminated k p e = some t) := by
  cases e with
  | waitblock w =>
    cases hb : k.waitblock w with
    | none =>
      refine ⟨fun t ht => ?_, fun h => absurd hb (h w rfl)⟩
      simp [processTerminated, hproc, Kernel.modifyWaitblock, hb] at ht
    | some b =>
      have heq : processTerminated k p (.waitblock w) = some { k with
          waitblock := Function.update k.waitblock w (some (b.processTerminated proc)) } := by
        simp only [processTerminated, hproc, Option.bind_eq_bind, Option.bind_some,
          modifyWaitblock_eq hb]
      refine ⟨fun t ht => ?_, fun _ _ => ⟨_, heq⟩⟩
      rw [heq] at ht
      obtain rfl := Option.some.inj ht
      exact notified_waitblock hb p proc
  | process q =>
    cases hq : k.process q with
    | none =>
      refine ⟨fun t ht => ?_, fun _ h => ?_⟩
      · simp [processTerminated, hproc, hq] at ht
      · obtain ⟨parent, hparent, -⟩ := h q rfl
        rw [hq] at hparent
        cases hparent
    | some parent =>
      by_cases h0 : parent.childTerminationListener = 0
      · have heq : processTerminated k p (.process q) = some { k with
            process := Function.update k.process q (some (parent.removeChild p)) } := by
          simp only [processTerminated, hproc, hq, Option.bind_eq_bind, Option.bind_some, h0,
            ne_eq, not_true_eq_false, if_false]
          exact modifyProcess_eq hq _
        refine ⟨fun t ht => ?_, fun _ _ => ⟨_, heq⟩⟩
        rw [heq] at ht
        obtain rfl := Option.some.inj ht
        exact notified_process hq p proc k.waitblock (fun h => absurd h0 h) fun _ _ => rfl
      · cases hb : k.waitblock parent.childTerminationListener with
        | none =>
          refine ⟨fun t ht => ?_, fun _ h => ?_⟩
          · simp [processTerminated, hproc, hq, h0, Kernel.modifyWaitblock, hb] at ht
          · obtain ⟨parent', hparent, h⟩ := h q rfl
            obtain rfl := Option.some.inj (hq.symm.trans hparent)
            exact absurd hb (h h0)
        | some b =>
          have heq : processTerminated k p (.process q) = some { k with
              waitblock := Function.update k.waitblock parent.childTerminationListener
                (some (b.processTerminated proc))
              process := Function.update k.process q (some (parent.removeChild p)) } := by
            simp only [processTerminated, hproc, hq, Option.bind_eq_bind, Option.bind_some, h0,
              ne_eq, not_false_eq_true, if_true, modifyWaitblock_eq hb]
            exact (modifyProcess_eq (by exact hq) _).trans rfl
          refine ⟨fun t ht => ?_, fun _ _ => ⟨_, heq⟩⟩
          rw [heq] at ht
          obtain rfl := Option.some.inj ht
          refine notified_process hq p proc _ (fun _ => by simp [hb]) fun w hw => ?_
          have hne : w ≠ parent.childTerminationListener := fun he => hw ⟨he.symm, he ▸ h0⟩
          exact Function.update_of_ne hne ..

theorem Notified.tells {listeners : List Listener} {e : Listener} (h : Notified k k₁ p proc [e])
    (hnot : e ∉ listeners) : Tells k₁.process listeners w ↔ Tells k.process listeners w := by
  have hsame : ∀ c, .process c ∈ listeners → k₁.process c = k.process c := fun c hc =>
    h.other c fun hmem => hnot (List.mem_singleton.mp hmem ▸ hc)
  unfold Tells
  constructor
  · rintro (hmem | ⟨c, parent, hc, hparent, hrest⟩)
    · exact .inl hmem
    · exact .inr ⟨c, parent, hc, hsame c hc ▸ hparent, hrest⟩
  · rintro (hmem | ⟨c, parent, hc, hparent, hrest⟩)
    · exact .inl hmem
    · exact .inr ⟨c, parent, hc, (hsame c hc).trans hparent, hrest⟩

theorem Notified.cons {listeners : List Listener} {e : Listener} (h : Notified k k₁ p proc [e])
    (hrest : Notified k₁ t p proc listeners) (hnot : e ∉ listeners) :
    Notified k t p proc (e :: listeners) := by
  constructor
  · rw [hrest.rest, h.rest]
  · intro q hq
    cases List.mem_cons.mp hq with
    | inl hq =>
      obtain ⟨parent, hparent, heq⟩ := h.parent q (by simp [hq])
      exact ⟨parent, hparent, (hrest.other q (hq ▸ hnot)).trans heq⟩
    | inr hq =>
      obtain ⟨parent, hparent, heq⟩ := hrest.parent q hq
      refine ⟨parent, ?_, heq⟩
      rw [← hparent]
      exact (h.other q fun hmem => hnot (List.mem_singleton.mp hmem ▸ hq)).symm
  · intro q hq
    obtain ⟨hqe, hq⟩ := not_or.mp (List.mem_cons.not.mp hq)
    exact (hrest.other q hq).trans (h.other q (by simpa using hqe))
  · intro w hw
    -- being told twice about one termination is being told once
    have htwice : ((k.waitblock w).map (·.processTerminated proc)).map (·.processTerminated proc) =
        (k.waitblock w).map (·.processTerminated proc) := by
      cases k.waitblock w <;> rfl
    by_cases hlater : Tells k.process listeners w
    · rw [hrest.told w ((h.tells hnot).mpr hlater)]
      by_cases hfirst : Tells k.process [e] w
      · rw [h.told w hfirst, htwice]
      · rw [h.untold w hfirst]
    · rw [hrest.untold w fun htells => hlater ((h.tells hnot).mp htells)]
      exact h.told w ((tells_cons.mp hw).resolve_right hlater)
  · intro w hw
    rw [tells_cons, not_or] at hw
    rw [hrest.untold w fun htells => hw.2 ((h.tells hnot).mp htells), h.untold w hw.1]

/-- All listeners of a process that is not one of them. -/
theorem foldlM_notified {listeners : List Listener} (hproc : k.process p = some proc)
    (hnot : .process p ∉ listeners) (hnodup : listeners.Nodup) :
    (∀ t, listeners.foldlM (processTerminated · p ·) k = some t →
        Notified k t p proc listeners) ∧
      ((∀ w, .waitblock w ∈ listeners → k.waitblock w ≠ none) →
        (∀ q, .process q ∈ listeners → ∃ parent, k.process q = some parent ∧
          (parent.childTerminationListener ≠ 0 →
            k.waitblock parent.childTerminationListener ≠ none)) →
        ∃ t, listeners.foldlM (processTerminated · p ·) k = some t) := by
  induction listeners generalizing k with
  | nil =>
    refine ⟨fun t ht => ?_, fun _ _ => ⟨k, rfl⟩⟩
    obtain rfl : k = t := by simpa using ht
    exact notified_nil k p proc
  | cons e listeners ih =>
    obtain ⟨hfirst, hexists⟩ := processTerminated_notified hproc e
    obtain ⟨he, hnodup⟩ := List.nodup_cons.mp hnodup
    obtain ⟨hpe, hnot⟩ := not_or.mp (List.mem_cons.not.mp hnot)
    have hstill : ∀ k₁, Notified k k₁ p proc [e] → k₁.process p = some proc := fun k₁ h =>
      (h.other p (by simpa using hpe)).trans hproc
    constructor
    · intro t ht
      rw [List.foldlM_cons, Option.bind_eq_bind, Option.bind_eq_some_iff] at ht
      obtain ⟨k₁, hk₁, ht⟩ := ht
      have hnotified := hfirst k₁ hk₁
      exact hnotified.cons ((ih (hstill k₁ hnotified) hnot hnodup).1 t ht) he
    · intro hblocks hparents
      obtain ⟨k₁, hk₁⟩ := hexists (fun w hw => hblocks w (by simp [hw]))
        fun q hq => hparents q (by simp [hq])
      have hnotified := hfirst k₁ hk₁
      have hallocated : ∀ w, k.waitblock w ≠ none → k₁.waitblock w ≠ none := by
        intro w hw
        by_cases htells : Tells k.process [e] w
        · rw [hnotified.told w htells]
          simpa using hw
        · rwa [hnotified.untold w htells]
      obtain ⟨t, ht⟩ := (ih (hstill k₁ hnotified) hnot hnodup).2
        (fun w hw => hallocated w (hblocks w (List.mem_cons_of_mem _ hw)))
        fun q hq => by
          obtain ⟨parent, hparent, hlistener⟩ := hparents q (List.mem_cons_of_mem _ hq)
          refine ⟨parent, ?_, fun h0 => hallocated _ (hlistener h0)⟩
          rw [← hparent]
          exact hnotified.other q fun hmem => he (List.mem_singleton.mp hmem ▸ hq)
      exact ⟨t, by rw [List.foldlM_cons, hk₁, Option.bind_eq_bind, Option.bind_some, ht]⟩

/-- `delete` on a process, seen from the view. It faults only if a parent is gone. -/
theorem deleteProcess_terminated (h : Kin (bareOf k.process) k.waitblock)
    (hproc : k.process p = some proc) :
    (∀ t, deleteProcess k p = some t →
        t = { k with process := t.process, waitblock := t.waitblock } ∧
        (∀ q, .process q ∈ proc.terminationListeners.elements → k.process q ≠ none) ∧
        Terminated (bareOf k.process) (bareOf t.process) k.waitblock t.waitblock p proc
          proc.terminationListeners.elements) ∧
      ((∀ q, .process q ∈ proc.terminationListeners.elements → k.process q ≠ none) →
        ∃ t, deleteProcess k p = some t) := by
  have hbare := bareOf_some hproc
  have hnot : .process p ∉ proc.terminationListeners.elements := by
    simpa using h.not_own hbare
  have honce : proc.terminationListeners.elements.Nodup := by
    simpa using h.once p _ hbare
  obtain ⟨hnotified, hexists⟩ := foldlM_notified hproc hnot honce
  constructor
  · intro t ht
    simp only [deleteProcess, hproc, Option.bind_eq_bind, Option.bind_some,
      Option.bind_eq_some_iff, Option.some.injEq] at ht
    obtain ⟨k₁, hk₁, rfl⟩ := ht
    have hn := hnotified k₁ hk₁
    have htells : ∀ w, Tells (bareOf k.process) proc.terminationListeners.elements w ↔
        Tells k.process proc.terminationListeners.elements w := by
      intro w
      refine or_congr Iff.rfl ⟨?_, ?_⟩
      · rintro ⟨c, parent, hc, hparent, hrest⟩
        obtain ⟨parent', hparent', rfl⟩ := exists_bareOf hparent
        exact ⟨c, parent', hc, hparent', hrest⟩
      · rintro ⟨c, parent, hc, hparent, hrest⟩
        exact ⟨c, parent.bare, hc, bareOf_some hparent, hrest⟩
    refine ⟨?_, fun q hq => ?_, ?_, ?_, ?_, ?_, ?_⟩
    · rw [hn.rest]
    · obtain ⟨parent, hparent, -⟩ := hn.parent q hq
      simp [hparent]
    · simp [bareOf]
    · intro q hqp hq
      obtain ⟨parent, hparent, heq⟩ := hn.parent q hq
      simp only [bareOf, Function.update_of_ne hqp, heq, hparent, Option.map_some]
      rfl
    · intro q hqp hq
      simp only [bareOf, Function.update_of_ne hqp, hn.other q hq]
    · exact fun w hw => hn.told w ((htells w).mp hw)
    · exact fun w hw => hn.untold w fun hw' => hw ((htells w).mpr hw')
  · intro hparents
    obtain ⟨k₁, hk₁⟩ := hexists (fun w hw => by
      obtain ⟨b, hb, -⟩ := h.listener p _ hbare w hw
      simp [hb]) fun q hq => by
        obtain ⟨parent, hparent⟩ := Option.ne_none_iff_exists'.mp (hparents q hq)
        refine ⟨parent, hparent, fun h0 => ?_⟩
        obtain ⟨heq, b, hb, -⟩ := h.childListener q _ (bareOf_some hparent) h0
        have hlistener : parent.childTerminationListener = parent.block := heq
        have hb : k.waitblock parent.block = some b := hb
        simp [hlistener, hb]
    exact ⟨{ k₁ with process := Function.update k₁.process p none }, by
      simp only [deleteProcess, hproc, Option.bind_eq_bind, Option.bind_some, hk₁]⟩

/-! ## Waiting -/

theorem findProcess_cases (pid : Nat) {queue : List Nat}
    (hall : ∀ q ∈ queue, k.process q ≠ none) :
    (findProcess k pid queue = some 0 ∧ ∀ q ∈ queue, ∀ proc, k.process q = some proc →
        proc.pid ≠ pid) ∨
      ∃ q ∈ queue, ∃ proc, k.process q = some proc ∧ proc.pid = pid ∧
        findProcess k pid queue = some q := by
  induction queue with
  | nil => exact .inl ⟨rfl, by simp⟩
  | cons q rest ih =>
    obtain ⟨proc, hproc⟩ := Option.ne_none_iff_exists'.mp (hall q (by simp))
    simp only [findProcess, hproc, Option.bind_eq_bind, Option.bind_some]
    by_cases hpid : proc.pid = pid
    · exact .inr ⟨q, by simp, proc, hproc, hpid, by rw [if_pos hpid]⟩
    · rw [if_neg hpid]
      obtain ⟨h0, hnone⟩ | ⟨r, hr, other, hother, hsame, hfind⟩ :=
        ih fun r hr => hall r (List.mem_cons_of_mem _ hr)
      · refine .inl ⟨h0, fun r hr other hother => ?_⟩
        cases List.mem_cons.mp hr with
        | inl hr =>
          subst hr
          rwa [← Option.some.inj (hproc.symm.trans hother)]
        | inr hr => exact hnone r hr other hother
      · exact .inr ⟨r, List.mem_cons_of_mem _ hr, other, hother, hsame, hfind⟩

/-- What the block of a wait listens to: any child of the caller, a process of the queue, or
nothing. -/
inductive Awaits (s : View) (b : Waitblock) : Option Nat → Bool → Prop where
  | children {proc : Process} : b.AnyChild → s.process b.caller = some proc →
      proc.children.length ≠ 0 → b.active = true → Awaits s b none true
  | process {q : Nat} {proc : Process} : ¬ b.AnyChild → q ∈ s.queue → s.process q = some proc →
      proc.pid = b.waitpid → b.active = true → Awaits s b (some q) false
  | nothing : (b.AnyChild → ∀ proc, s.process b.caller = some proc → proc.children.length = 0) →
      (¬ b.AnyChild → ∀ q ∈ s.queue, ∀ proc, s.process q = some proc → proc.pid ≠ b.waitpid) →
      b.active = false → b.terminatedPid = 0xffffffff → Awaits s b none false

/-- In `t` the current process of `k` waits with the new block `b` at `w`. -/
structure StartsWait (k t : Kernel) (pid statusLoc w : Nat) (proc : Process) (b : Waitblock)
    (target : Option Nat) (watch : Bool) : Prop where
  waitpid : b.waitpid = pid
  location : b.statusLoc = statusLoc
  caller : b.caller = k.currentProcess
  awaits : Awaits k.view b target watch
  waits : Waits (bareOf k.process) (bareOf t.process) k.currentProcess w proc.bare target watch
  view : t.view = { k.view with
    process := bareOf t.process
    waitblock := Function.update k.waitblock w (some b)
    queue := k.view.queue ++ [k.currentProcess]
    currentProcess := 0
    registerBlock := 0 }

/-- A wait that nothing will end: no process is told about the block. -/
theorem StartsWait.nothing {pid statusLoc : Nat} {memory : Waitblock}
    (hproc : k.process k.currentProcess = some proc)
    (hnew : newWaitblock k w memory pid statusLoc k.currentProcess = some { k with
      waitblock := Function.update k.waitblock w (some b) })
    (hb : b.waitpid = pid) (hloc : b.statusLoc = statusLoc) (hcaller : b.caller = k.currentProcess)
    (hawaits : Awaits k.view b none false) :
    ∃ t, syscallWait k pid statusLoc w memory = some t ∧
      StartsWait k t pid statusLoc w proc b none false := by
  refine ⟨_, syscallWait_eq hnew rfl hproc, hb, hloc, hcaller, hawaits, ⟨?_, ?_⟩, rfl⟩
  · simp only [bareOf_update, Function.update_self, Option.map_some]
    rfl
  · intro q hq
    have hne : (none : Option Nat) ≠ some q := by simp
    simp only [bareOf_update, Function.update_of_ne hq, if_neg hne, Option.map_id']

/-- The process that waits for its children will be told by itself. -/
theorem StartsWait.children {pid statusLoc : Nat} {memory : Waitblock}
    (hnew : newWaitblock k w memory pid statusLoc k.currentProcess = some { k with
      waitblock := Function.update k.waitblock w (some b)
      process := Function.update k.process k.currentProcess
        (some { proc with childTerminationListener := w }) })
    (hb : b.waitpid = pid) (hloc : b.statusLoc = statusLoc) (hcaller : b.caller = k.currentProcess)
    (hawaits : Awaits k.view b none true) :
    ∃ t, syscallWait k pid statusLoc w memory = some t ∧
      StartsWait k t pid statusLoc w proc b none true := by
  refine ⟨_, syscallWait_eq hnew rfl (Function.update_self ..), hb, hloc, hcaller, hawaits,
    ⟨?_, ?_⟩, rfl⟩
  · simp only [bareOf_update, Function.update_self, Option.map_some]
    rfl
  · intro q hq
    have hne : (none : Option Nat) ≠ some q := by simp
    simp only [bareOf_update, Function.update_of_ne hq, if_neg hne, Option.map_id']

/-- The process that waits for `q` will be told by `q`. -/
theorem StartsWait.process {pid statusLoc q : Nat} {memory : Waitblock} {other : Process}
    (hproc : k.process k.currentProcess = some proc) (hq : k.process q = some other)
    (hqc : q ≠ k.currentProcess)
    (hnew : newWaitblock k w memory pid statusLoc k.currentProcess = some { k with
      waitblock := Function.update k.waitblock w (some b)
      process := Function.update k.process q
        (some (other.addTerminationListener (.waitblock w))) })
    (hb : b.waitpid = pid) (hloc : b.statusLoc = statusLoc) (hcaller : b.caller = k.currentProcess)
    (hawaits : Awaits k.view b (some q) false) :
    ∃ t, syscallWait k pid statusLoc w memory = some t ∧
      StartsWait k t pid statusLoc w proc b (some q) false := by
  refine ⟨_, syscallWait_eq hnew rfl ((Function.update_of_ne hqc.symm ..).trans hproc), hb, hloc,
    hcaller, hawaits, ⟨?_, ?_⟩, rfl⟩
  · simp only [bareOf_update, Function.update_self, Option.map_some]
    rfl
  · intro r hr
    rw [bareOf_update, bareOf_update, Function.update_of_ne hr]
    by_cases hrq : r = q
    · subst hrq
      rw [Function.update_self, bareOf_some hq, Option.map_some, Option.map_some, if_pos rfl]
      rfl
    · have hne : (some q : Option Nat) ≠ some r := fun he => hrq (Option.some.inj he).symm
      rw [Function.update_of_ne hrq]
      simp only [if_neg hne, Option.map_id']

/-- `scheduler::syscall_wait` by a process that is not in the queue. -/
theorem syscallWait_waits (pid statusLoc : Nat) (memory : Waitblock)
    (hproc : k.process k.currentProcess = some proc)
    (hall : ∀ q ∈ k.processQueue.elements, k.process q ≠ none) (hnull : k.process 0 = none)
    (hcur : k.currentProcess ∉ k.processQueue.elements) :
    ∃ t b target watch, syscallWait k pid statusLoc w memory = some t ∧
      StartsWait k t pid statusLoc w proc b target watch := by
  let waiting : Waitblock :=
    ⟨pid, statusLoc, memory.exitCode, k.currentProcess, memory.terminatedPid, true⟩
  let inactive : Waitblock := ⟨pid, statusLoc, memory.exitCode, k.currentProcess, 0xffffffff, false⟩
  by_cases hany : pid = 0xffffffff ∨ pid = 0
  · by_cases hlen : proc.children.length = 0
    · have hnew : newWaitblock k w memory pid statusLoc k.currentProcess = some { k with
          waitblock := Function.update k.waitblock w (some inactive) } := by
        simp only [newWaitblock, if_pos hany, hproc, Option.bind_eq_bind, Option.bind_some, hlen,
          ne_eq, not_true_eq_false, if_false, inactive]
      have hawaits : Awaits k.view inactive none false := by
        refine .nothing (fun _ bare hb => ?_) (fun hnot => absurd hany hnot) rfl rfl
        obtain rfl := Option.some.inj ((bareOf_some hproc).symm.trans hb)
        exact hlen
      obtain ⟨t, ht, hs⟩ := StartsWait.nothing hproc hnew rfl rfl rfl hawaits
      exact ⟨t, inactive, none, false, ht, hs⟩
    · have hnew : newWaitblock k w memory pid statusLoc k.currentProcess = some { k with
          waitblock := Function.update k.waitblock w (some waiting)
          process := Function.update k.process k.currentProcess
            (some { proc with childTerminationListener := w }) } := by
        simp only [newWaitblock, if_pos hany, hproc, Option.bind_eq_bind, Option.bind_some, hlen,
          ne_eq, not_false_eq_true, if_true]
        exact (modifyProcess_eq (by exact hproc) _).trans rfl
      have hawaits : Awaits k.view waiting none true :=
        .children hany (bareOf_some hproc) hlen rfl
      obtain ⟨t, ht, hs⟩ := StartsWait.children hnew rfl rfl rfl hawaits
      exact ⟨t, waiting, none, true, ht, hs⟩
  · obtain ⟨h0, hnone⟩ | ⟨q, hq, other, hq', hpid, hfind⟩ := findProcess_cases pid hall
    · have hnew : newWaitblock k w memory pid statusLoc k.currentProcess = some { k with
          waitblock := Function.update k.waitblock w (some inactive) } := by
        simp only [newWaitblock, if_neg hany, getProcess, h0, Option.bind_eq_bind,
          Option.bind_some, if_true, inactive]
      have hawaits : Awaits k.view inactive none false := by
        refine .nothing (fun hnot => absurd hnot hany) (fun _ q hq bare hb => ?_) rfl rfl
        obtain ⟨other, hother, rfl⟩ := exists_bareOf hb
        exact hnone q hq other hother
      obtain ⟨t, ht, hs⟩ := StartsWait.nothing hproc hnew rfl rfl rfl hawaits
      exact ⟨t, inactive, none, false, ht, hs⟩
    · have hq0 : q ≠ 0 := by
        rintro rfl
        rw [hnull] at hq'
        cases hq'
      have hqc : q ≠ k.currentProcess := by
        rintro rfl
        exact hcur hq
      have hnew : newWaitblock k w memory pid statusLoc k.currentProcess = some { k with
          waitblock := Function.update k.waitblock w (some waiting)
          process := Function.update k.process q
            (some (other.addTerminationListener (.waitblock w))) } := by
        simp only [newWaitblock, if_neg hany, getProcess, hfind, Option.bind_eq_bind,
          Option.bind_some, if_neg hq0]
        exact (modifyProcess_eq (by exact hq') _).trans rfl
      have hawaits : Awaits k.view waiting (some q) false :=
        .process hany hq (bareOf_some hq') hpid rfl
      obtain ⟨t, ht, hs⟩ := StartsWait.process hproc hq' hqc hnew rfl rfl rfl hawaits
      exact ⟨t, waiting, some q, false, ht, hs⟩

/-! ## The end of a wait -/

/-- The block of a process that is chosen to run returns and is deleted. -/
theorem releaseBlock_inactive (hproc : k.process p = some proc) (h0 : proc.block ≠ 0)
    (hb : k.waitblock proc.block = some b) (hcaller : b.caller = p) :
    releaseBlock k p = some { k with
      process := Function.update k.process p (some { proc with
        registers := { proc.registers with
          r := Function.update proc.registers.r 0 b.terminatedPid }
        childTerminationListener :=
          if b.waitpid = 0xffffffff ∨ b.waitpid = 0 then 0 else proc.childTerminationListener
        block := 0 })
      waitblock := Function.update k.waitblock proc.block none
      stores := k.stores ++ if b.statusLoc = 0 then [] else
        [⟨k.mmu.currentApplicationTable, b.statusLoc, b.exitCode⟩] } := by
  subst hcaller
  have hreturn : blockReturn k proc.block = some { k with
      process := Function.update k.process b.caller (some { proc with
        registers := { proc.registers with
          r := Function.update proc.registers.r 0 b.terminatedPid } })
      stores := k.stores ++ if b.statusLoc = 0 then [] else
        [⟨k.mmu.currentApplicationTable, b.statusLoc, b.exitCode⟩] } := by
    simp only [blockReturn, hb, Option.bind_eq_bind, Option.bind_some, modifyProcess_eq hproc]
    by_cases hloc : b.statusLoc = 0 <;> simp [hloc]
  simp only [releaseBlock, hproc, Option.bind_eq_bind, Option.bind_some, if_neg h0, hreturn,
    deleteWaitblock, hb]
  by_cases hany : b.waitpid = 0xffffffff ∨ b.waitpid = 0
  · rw [if_pos hany, if_pos hany]
    simp [Kernel.modifyProcess]
  · rw [if_neg hany, if_neg hany]
    simp [Kernel.modifyProcess]

theorem releaseBlock_free (hproc : k.process p = some proc) (h0 : proc.block = 0) :
    releaseBlock k p = some k := by
  simp only [releaseBlock, hproc, Option.bind_eq_bind, Option.bind_some, if_pos h0]

end WagtailScheduler
