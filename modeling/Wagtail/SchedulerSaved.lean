import Wagtail.SchedulerMoves

/-!
# What processes resume from

The functions of the scheduler change no registers but the first one of a process
that is chosen after a wait, and no block but that of a process that starts or ends
to wait.
-/
namespace WagtailScheduler

open WagtailKqueue
open WagtailMmu

variable {virtualToPhysical : Nat → Nat} {k t : Kernel} {p q w : Nat} {proc : Process}

/-- The registers of a process and the block that it waits at. -/
structure Saved where
  registers : Registers
  block : Nat

def Process.saved (proc : Process) : Saved := ⟨proc.registers, proc.block⟩

def Kernel.saved (k : Kernel) (p : Nat) : Option Saved := (k.process p).map Process.saved

theorem saved_some (h : k.process p = some proc) : k.saved p = some proc.saved := by
  rw [Kernel.saved, h, Option.map_some]

theorem saved_none (h : k.process p = none) : k.saved p = none := by
  rw [Kernel.saved, h, Option.map_none]

theorem saved_update (P : Nat → Option Process) (p : Nat) (proc : Option Process) :
    Kernel.saved { k with process := Function.update P p proc } =
      Function.update (Kernel.saved { k with process := P }) p (proc.map Process.saved) := by
  funext q
  by_cases hq : q = p
  · subst hq
    simp [Kernel.saved]
  · simp [Kernel.saved, Function.update_of_ne hq]

/-- A process is changed: what it resumes from is changed with it. -/
theorem modifyProcess_saved {f : Process → Process} {g : Saved → Saved}
    (hf : ∀ proc, (f proc).saved = g proc.saved) (h : k.modifyProcess p f = some t) :
    t.saved = Function.update k.saved p ((k.saved p).map g) := by
  obtain ⟨proc, hproc, rfl⟩ := Option.map_eq_some_iff.mp h
  rw [saved_update, Option.map_some, hf, saved_some hproc, Option.map_some]

theorem modifyProcess_keeps {f : Process → Process} (hf : ∀ proc, (f proc).saved = proc.saved)
    (h : k.modifyProcess p f = some t) : t.saved = k.saved := by
  rw [modifyProcess_saved (g := id) hf h, Option.map_id, id, Function.update_eq_self]

theorem modifyWaitblock_keeps {f : Waitblock → Waitblock} (h : k.modifyWaitblock w f = some t) :
    t.saved = k.saved := by
  obtain ⟨b, -, rfl⟩ := Option.map_eq_some_iff.mp h
  rfl

/-! ## Terminations -/

theorem processTerminated_saved {child : Nat} {listener : Listener}
    (h : processTerminated k child listener = some t) : t.saved = k.saved := by
  obtain ⟨terminated, -, h⟩ := Option.bind_eq_some_iff.mp h
  cases listener with
  | waitblock w => exact modifyWaitblock_keeps h
  | process p =>
    obtain ⟨parent, -, h⟩ := Option.bind_eq_some_iff.mp h
    dsimp only at h
    split_ifs at h with h0
    · obtain ⟨k₁, hk₁, h⟩ := Option.bind_eq_some_iff.mp h
      rw [modifyProcess_keeps (by exact fun _ => rfl) h, modifyWaitblock_keeps hk₁]
    · exact modifyProcess_keeps (by exact fun _ => rfl) h

theorem foldlM_saved {listeners : List Listener}
    (h : listeners.foldlM (processTerminated · p ·) k = some t) : t.saved = k.saved := by
  induction listeners generalizing k with
  | nil =>
    obtain rfl : k = t := by simpa using h
    rfl
  | cons listener listeners ih =>
    rw [List.foldlM_cons, Option.bind_eq_bind, Option.bind_eq_some_iff] at h
    obtain ⟨k₁, hk₁, h⟩ := h
    rw [ih h, processTerminated_saved hk₁]

theorem deleteProcess_saved (h : deleteProcess k p = some t) :
    t.saved = Function.update k.saved p none := by
  obtain ⟨proc, -, h⟩ := Option.bind_eq_some_iff.mp h
  obtain ⟨k₁, hk₁, h⟩ := Option.bind_eq_some_iff.mp h
  obtain rfl := Option.some.inj h
  rw [saved_update, ← foldlM_saved hk₁]
  rfl

/-! ## System calls -/

theorem storeContext_saved {registers : Registers} (h : storeContext k registers = some t) :
    t.saved = if k.registerBlock = 0 then k.saved else Function.update k.saved k.registerBlock
      ((k.saved k.registerBlock).map fun saved => { saved with registers }) := by
  rw [storeContext] at h
  split_ifs at h ⊢ with h0
  · rw [Option.some.inj h]
  · exact modifyProcess_saved (by exact fun _ => rfl) h

theorem newWaitblock_saved {pid statusLoc caller : Nat} {memory : Waitblock}
    (h : newWaitblock k w memory pid statusLoc caller = some t) :
    t.saved = k.saved ∧ t.currentProcess = k.currentProcess := by
  have hmodify : ∀ {k : Kernel} {p : Nat} {f : Process → Process},
      (∀ proc, (f proc).saved = proc.saved) → k.modifyProcess p f = some t →
      t.saved = k.saved ∧ t.currentProcess = k.currentProcess := by
    intro k p f hf h
    refine ⟨modifyProcess_keeps hf h, ?_⟩
    obtain ⟨proc, -, rfl⟩ := Option.map_eq_some_iff.mp h
    rfl
  rw [newWaitblock] at h
  dsimp only at h
  split_ifs at h with hany
  · obtain ⟨proc, -, h⟩ := Option.bind_eq_some_iff.mp h
    split_ifs at h with hchildren
    · obtain ⟨hsaved, hcur⟩ := hmodify (by exact fun _ => rfl) h
      exact ⟨hsaved.trans rfl, hcur.trans rfl⟩
    · obtain rfl := Option.some.inj h
      exact ⟨rfl, rfl⟩
  · obtain ⟨p, -, h⟩ := Option.bind_eq_some_iff.mp h
    split_ifs at h with h0
    · obtain rfl := Option.some.inj h
      exact ⟨rfl, rfl⟩
    · obtain ⟨hsaved, hcur⟩ := hmodify (by exact fun _ => rfl) h
      exact ⟨hsaved.trans rfl, hcur.trans rfl⟩

theorem syscallExit_saved {retval : Nat} (h : syscallExit k retval = some t) :
    t.saved = Function.update k.saved k.currentProcess none ∧ t.registerBlock = 0 := by
  obtain ⟨k₁, hk₁, h⟩ := Option.bind_eq_some_iff.mp h
  obtain ⟨k₂, hk₂, h⟩ := Option.bind_eq_some_iff.mp h
  obtain rfl := Option.some.inj h
  have hcode := modifyProcess_keeps (by exact fun _ => rfl) hk₁
  have hcur : k₁.currentProcess = k.currentProcess := by
    obtain ⟨proc, -, rfl⟩ := Option.map_eq_some_iff.mp hk₁
    rfl
  have hdelete := deleteProcess_saved hk₂
  rw [hcode, hcur] at hdelete
  exact ⟨hdelete, rfl⟩

theorem syscallWait_saved {pid statusLoc : Nat} {memory : Waitblock}
    (h : syscallWait k pid statusLoc w memory = some t) :
    t.saved = Function.update k.saved k.currentProcess
      ((k.saved k.currentProcess).map fun saved => { saved with block := w }) ∧
      t.registerBlock = 0 := by
  obtain ⟨k₁, hk₁, h⟩ := Option.bind_eq_some_iff.mp h
  obtain ⟨k₂, hk₂, h⟩ := Option.bind_eq_some_iff.mp h
  obtain rfl := Option.some.inj h
  obtain ⟨hnew, hcur⟩ := newWaitblock_saved hk₁
  have hblock := modifyProcess_saved (g := fun saved => { saved with block := w })
    (by exact fun _ => rfl) hk₂
  rw [hnew, hcur] at hblock
  exact ⟨hblock, rfl⟩

/-! ## Forks -/

/-- The registers of a child: its first one is cleared if `process::fork` gets that far. -/
def childRegisters (proc : Process) (linked : Bool) : Registers :=
  if linked then { proc.registers with r := Function.update proc.registers.r r0 0 }
  else proc.registers

theorem fork_saved {parent child : Nat} {linked : Bool}
    (h : fork k parent child proc linked = some t) :
    t.saved = Function.update k.saved child (some ⟨childRegisters proc linked, proc.block⟩) := by
  have hmade : Kernel.saved { k with process := Function.update k.process child (some proc) } =
      Function.update k.saved child (some proc.saved) := saved_update ..
  cases linked with
  | false =>
    obtain rfl := Option.some.inj h
    exact hmade
  | true =>
    obtain ⟨k₁, hk₁, h⟩ := Option.bind_eq_some_iff.mp h
    obtain ⟨k₂, hk₂, h⟩ := Option.bind_eq_some_iff.mp h
    have hk : k₂.saved = Function.update k.saved child (some proc.saved) := by
      rw [modifyProcess_keeps (by exact fun _ => rfl) hk₂,
        modifyProcess_keeps (by exact fun _ => rfl) hk₁]
      exact hmade
    have hclear := modifyProcess_saved (g := fun saved => { saved with
      registers := { saved.registers with r := Function.update saved.registers.r r0 0 } })
      (by exact fun _ => rfl) h
    rw [hclear, hk, Function.update_idem, Function.update_self, Option.map_some, childRegisters,
      if_pos rfl]
    rfl

theorem syscallFork_saved {child table value : Nat} {linked usable : Bool}
    (hfree : k.process child = none)
    (h : syscallFork virtualToPhysical k child proc linked usable table = some (t, value)) :
    t.saved = if usable then Function.update k.saved child
      (some ⟨childRegisters proc linked, proc.block⟩) else k.saved := by
  obtain ⟨k₁, hk₁, h⟩ := Option.bind_eq_some_iff.mp h
  obtain ⟨parent, -, h⟩ := Option.bind_eq_some_iff.mp h
  have hfork := fork_saved hk₁
  cases usable with
  | true =>
    obtain ⟨made, -, h⟩ := Option.bind_eq_some_iff.mp h
    obtain ⟨rfl, -⟩ := Prod.mk.inj (Option.some.inj h)
    exact hfork
  | false =>
    obtain ⟨k₂, hk₂, h⟩ := Option.bind_eq_some_iff.mp h
    obtain ⟨rfl, -⟩ := Prod.mk.inj (Option.some.inj h)
    have hdelete := deleteProcess_saved hk₂
    rw [if_neg Bool.false_ne_true, hdelete]
    show Function.update k₁.saved child none = _
    rw [hfork, Function.update_idem, ← saved_none hfree, Function.update_eq_self]

/-! ## The choice of the next process -/

/-- What an interrupt makes of the processes: the one that is chosen to run is unchanged, or it has
waited, and the PID that its wait block was told of is in its first register. -/
inductive Chooses (k t : Kernel) : Prop where
  | keeps : t.saved = k.saved → t.registerBlock = k.registerBlock → Chooses k t
  | runs {saved : Saved} : t.saved = k.saved → k.saved t.registerBlock = some saved →
      saved.block = 0 → Chooses k t
  | answers {saved : Saved} {b : Waitblock} : k.saved t.registerBlock = some saved →
      saved.block ≠ 0 → k.waitblock saved.block = some b → b.active = false →
      t.saved = Function.update k.saved t.registerBlock (some { saved with
        registers := { saved.registers with
          r := Function.update saved.registers.r r0 b.terminatedPid }
        block := 0 }) → Chooses k t

theorem interrupt_chooses (hv : Valid k.view) (h : interrupt virtualToPhysical k = some t) :
    Chooses k t := by
  cases hc : candidates k with
  | nil =>
    obtain ⟨-, hstep⟩ := interrupt_nil virtualToPhysical hc
    obtain rfl := Option.some.inj (hstep.symm.trans h)
    exact .keeps rfl rfl
  | cons next rest =>
    obtain ⟨proc, hproc⟩ := hv.exists_process (hc ▸ List.mem_cons_self : next ∈ candidates k)
    have hbare : k.view.process next = some proc.bare := bareOf_some hproc
    obtain ⟨length, hstep⟩ := interrupt_cons virtualToPhysical hc hproc
    rw [hstep] at h
    by_cases h0 : proc.block = 0
    · have hblocking : isBlocking k next = some false := by
        simp only [isBlocking, hproc, Option.bind_eq_bind, Option.bind_some, if_pos h0]
      rw [hblocking, Option.bind_some, if_neg Bool.false_ne_true,
        releaseBlock_free (by exact hproc) h0] at h
      obtain rfl := Option.some.inj h
      exact .runs rfl (saved_some hproc) h0
    · obtain ⟨b, hb, hcaller⟩ := hv.kin.block next _ hbare h0
      have hb' : k.waitblock proc.block = some b := hb
      have hblocking : isBlocking k next = some b.active := by
        simp only [isBlocking, hproc, Option.bind_eq_bind, Option.bind_some, if_neg h0, hb']
      rw [hblocking, Option.bind_some] at h
      cases hactive : b.active with
      | true =>
        rw [hactive, if_pos rfl] at h
        obtain rfl := Option.some.inj h
        exact .keeps rfl rfl
      | false =>
        rw [hactive, if_neg Bool.false_ne_true, releaseBlock_inactive (by exact hproc) h0
          (by exact hb') hcaller, Option.bind_some] at h
        obtain rfl := Option.some.inj h
        exact .answers (saved_some hproc) h0 hb' hactive (saved_update ..)

/-! ## The process whose registers are in use -/

/-- The register block is the current process's unless nothing is current, and its process does
not wait. -/
structure InUse (s : View) : Prop where
  registerBlock : s.currentProcess ≠ 0 → s.registerBlock = s.currentProcess
  awake : ∀ proc, s.process s.registerBlock = some proc → proc.block = 0

theorem moves_inUse {s s' : View} {a : Action} (hv : Valid s) (hm : Moves s a s')
    (h : InUse s) : InUse s' := by
  have hnull : s.process 0 = none := hv.kin.null
  cases hm with
  | schedule hc =>
    refine ⟨h.registerBlock, fun other hother => ?_⟩
    obtain ⟨-, rfl⟩ | ⟨-, hother⟩ := update_cases hother
    · exact hc.constructed.1
    · exact h.awake other hother
  | halt _ => exact ⟨h.registerBlock, h.awake⟩
  | putBack => exact ⟨fun h0 => absurd rfl h0, h.awake⟩
  | run hc hnext hblock =>
    refine ⟨fun _ => rfl, fun other hother => ?_⟩
    rwa [← Option.some.inj (hnext.symm.trans hother)]
  | release =>
    refine ⟨fun _ => rfl, fun other hother => ?_⟩
    simp only [Function.update_self, Option.some.injEq] at hother
    rw [← hother]
  | exit hcur _ ht =>
    refine ⟨fun h0 => absurd rfl h0, fun other hother => ?_⟩
    have hlive : _ ≠ none := fun hnone => nomatch hnone.symm.trans hother
    exact absurd hnull ((ht.live 0).mp hlive).2
  | wait h0 hw hnone hcur _ _ hcaller ha hP =>
    refine ⟨fun h0 => absurd rfl h0, fun other hother => ?_⟩
    have hlive : _ ≠ none := fun hnone => nomatch hnone.symm.trans hother
    exact absurd hnull ((hP.live hcur 0).mp hlive)
  | fork hcur hc hpid =>
    have hblock := h.registerBlock (hv.current_ne_zero hcur)
    refine ⟨h.registerBlock, fun other hother => ?_⟩
    rw [hblock] at hother
    exact (forked_current hc hcur hother).trans (hv.running _ hcur)
  | abort hcur hc hpid ht =>
    have hblock := h.registerBlock (hv.current_ne_zero hcur)
    refine ⟨h.registerBlock, fun other hother => ?_⟩
    rw [hblock] at hother
    obtain ⟨-, old, hold, rfl⟩ := ht.process hother
    have hfree := (forked_current hc hcur hold).trans (hv.running _ hcur)
    split_ifs <;> exact hfree

theorem inUse_initial (mmu : Mmu) : InUse (initial mmu).view :=
  ⟨fun h0 => absurd rfl h0, fun _ hproc => by cases hproc⟩

/-- The system halts when there are no processes left. -/
theorem moves_halted {s s' : View} {a : Action} (hv : Valid s) (hm : Moves s a s')
    (h : s.halted = false) (h' : s'.halted = true) : s'.registerBlock = 0 := by
  cases hm with
  | halt hc =>
    by_contra h0
    have hlive := (hv.live s.registerBlock).mpr (hv.registerBlock h0)
    rw [hc] at hlive
    cases hlive
  | _ => exact absurd (h.symm.trans h') Bool.false_ne_true

theorem moves_fork {s s' : View} {registers : Registers} {child table : Nat} {linked usable : Bool}
    (hm : Moves s (.fork registers child proc linked usable table) s') :
    s'.registerBlock = s.registerBlock := by
  cases hm <;> rfl

end WagtailScheduler
