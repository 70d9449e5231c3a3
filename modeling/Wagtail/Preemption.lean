import Wagtail.ContextSwitch
import Wagtail.SchedulerSaved

/-!
# Preemption

The processor and the kernel as one system: code runs in user and system mode, and
exceptions interrupt it. Seen from a process, it has a processor of its own, which
stops and goes on where it has stopped.
-/
namespace WagtailPreemption

open Arm
open Word (wrap sub)
open WagtailInterrupts
open WagtailScheduler

/-! ## The system -/

/-- `pc` is where the processor goes on, unless it waits for an interrupt. -/
structure System where
  machine : Machine
  pc : Nat
  waiting : Bool

abbrev System.cpu (s : System) : Cpu := s.machine.cpu

abbrev System.kernel (s : System) : Kernel := s.machine.kernel

/-- Handlers are entered in Thumb state. -/
def System.take (s : System) (mode : BitVec 5) (link : Nat) : Machine :=
  s.machine.exec (·.take mode (wrap link) true)

/-- What is left when a handler is done. -/
def System.deliver (s : System) : Outcome → System
  | .resumes pc m => ⟨m, m.cpu.cpsr.align pc, false⟩
  | .returns pc m => ⟨m, m.cpu.cpsr.align pc, s.waiting⟩
  | .waits m => ⟨m, s.pc, true⟩
  | .halts m => ⟨m, s.pc, true⟩

/-- The length of a `svc` instruction. -/
def length (psr : Psr) : Nat := if psr.thumb then 2 else 4

/-- The halfword in front of the return address of a `svc` instruction with a number: the whole
instruction, or the upper half of it. -/
def svcHalfword (psr : Psr) (number : Nat) : Nat :=
  if psr.thumb then 0xdf00 + number else 0xef00 + number / 2 ^ 16

/-- Code runs, a process is scheduled, or an exception happens. -/
inductive Happening where
  | execute (user : Fin 15 → Nat) (psr : Psr) (pc : Nat)
  | create (p : Nat) (proc : Process)
  | irq (sirIrq : Nat) (x : Returned)
  | svc (number word : Nat) (a : Allocation) (x : Returned)
  | prefetchAbort (x : Returned)
  | dataAbort (x : Returned)
  | undef

variable (virtualToPhysical : Nat → Nat) (site : Site → Nat)

def System.step (s : System) : Happening → Option System
  | .execute user psr pc =>
    some { s with machine := s.machine.exec fun c => { c.setUser user with cpsr := psr }, pc }
  | .create p proc => do
    let kernel ← performAction virtualToPhysical s.kernel (.event (.schedule p proc))
    some { s with machine := { s.machine with kernel } }
  | .irq sirIrq x =>
    (intIrq virtualToPhysical site (s.take irq (s.pc + 4)) sirIrq x).map s.deliver
  | .svc number word a x =>
    (intSvc virtualToPhysical site (s.take svc (s.pc + length s.cpu.cpsr))
      (svcHalfword s.cpu.cpsr number) word a x).map s.deliver
  | .prefetchAbort x => (intPrefetchAbort (s.take abt (s.pc + 4)) x).map s.deliver
  | .dataAbort x => (intDataAbort (s.take abt (s.pc + 8)) x).map s.deliver
  | .undef => some (s.deliver (intUndef (s.take und (s.pc + length s.cpu.cpsr))))

/-- The system after the kernel has been initialized. -/
def initial (mmu : WagtailMmu.Mmu) (cpu : Cpu) : System := ⟨⟨cpu, WagtailScheduler.initial mmu⟩, 0, true⟩

/-! ## What the scheduler sees -/

/-- The context that an exception with this link has interrupted. -/
def System.registers (s : System) (link : Nat) : Registers := ⟨s.cpu.user, s.cpu.cpsr.word, link⟩

/-- An exception enters the scheduler, or only stores the context. -/
inductive Entry where
  | action (a : Action)
  | store (registers : Registers)

def Entry.Enabled (k : Kernel) : Entry → Prop
  | .action a => a.Enabled k
  | .store _ => True

def enter (k : Kernel) : Entry → Option Kernel
  | .action a => performAction virtualToPhysical k a
  | .store registers => storeContext k registers

def EntryStep (k : Kernel) (e : Entry) (t : Kernel) : Prop :=
  k.halted = false ∧ e.Enabled k ∧ enter virtualToPhysical k e = some t

/-- The number of a system call, by the state of the processor. -/
def called (psr : Psr) (number : Nat) : Nat := if psr.thumb then number else number / 2 ^ 16

/-- A system call, from the context that it has interrupted. -/
def callEntry (registers : Registers) (number : Nat) (a : Allocation) : Entry :=
  match number with
  | 1 => .action (.event (.exit registers (registers.r WagtailScheduler.r0)))
  | 2 => .action (.fork registers a.child a.proc a.linked a.usable a.table)
  | 3 => .action (.event (.wait registers (registers.r WagtailScheduler.r0)
      (registers.r userR1) a.block a.memory))
  | _ => .store registers

def System.entry (s : System) : Happening → Option Entry
  | .create p proc => some (.action (.event (.schedule p proc)))
  | .irq sirIrq _ =>
    if sirIrq &&& 0xff = timerIrq then
      some (.action (.event (.interrupt (s.registers (wrap (s.pc + 4))))))
    else none
  | .svc number _ a _ =>
    some (callEntry (s.registers (wrap (wrap (s.pc + length s.cpu.cpsr) + 4)))
      (called s.cpu.cpsr number) a)
  | _ => none

/-! ## What can happen -/

/-- The registers of a process that runs in user or system mode. -/
def Unprivileged (registers : Registers) : Prop :=
  bank (Psr.ofWord registers.spsr).mode = usr

/-- What a process is made of, and the child of a fork, runs in user or system mode; code does not
change its mode, and is aligned. -/
def Happening.Enabled (s : System) : Happening → Prop
  | .execute _ psr pc => s.waiting = false ∧ psr.mode = s.cpu.cpsr.mode ∧ pc < 2 ^ 32 ∧
      psr.align pc = pc
  | .create _ proc => Unprivileged proc.registers
  | .irq _ _ => True
  | .svc number _ a _ => s.waiting = false ∧ called s.cpu.cpsr number < 256 ∧
      Unprivileged a.proc.registers
  | _ => s.waiting = false

/-- The kernel has not halted, and allows what enters it. -/
def SystemStep (s : System) (h : Happening) (t : System) : Prop :=
  s.kernel.halted = false ∧ h.Enabled s ∧ (∀ e ∈ s.entry h, e.Enabled s.kernel) ∧
    s.step virtualToPhysical site h = some t

/-- An interrupt of the timer is not marked as spurious. -/
def Genuine (_ : System) : Happening → Prop
  | .irq sirIrq _ => sirIrq &&& 0x7f = timerIrq → sirIrq &&& 0xff = timerIrq
  | _ => True

/-! ## A processor for every process -/

/-- `waits` is whether the result of a wait is still to come. -/
structure Context where
  user : Fin 15 → Nat
  psr : Psr
  pc : Nat
  waits : Bool

/-- The context behind a `svc` instruction. -/
def Context.behind (c : Context) : Context :=
  { c with pc := c.psr.align (wrap (c.pc + length c.psr)) }

/-- The context behind a call that returns. -/
def Context.answered (c : Context) (x : Returned) : Context :=
  { c.behind with user := fun i => match i.val with
    | 0 => x.r0
    | 1 => x.r1
    | 2 => x.r2
    | 3 => x.r3
    | _ => c.user i }

/-- What is stored for a process. -/
def context (saved : Saved) : Context where
  user := saved.registers.r
  psr := Psr.ofWord saved.registers.spsr
  pc := (Psr.ofWord saved.registers.spsr).align (sub saved.registers.returnAddress 4)
  waits := decide (saved.block ≠ 0)

/-- Every process has a processor, and one of them runs, or none. -/
@[ext] structure Virtual where
  context : Nat → Option Context
  running : Nat

def Virtual.put (v : Virtual) (p : Nat) (c : Option Context) : Virtual :=
  { v with context := Function.update v.context p c }

@[simp] theorem put_self (v : Virtual) (p : Nat) (c : Option Context) : (v.put p c).context p = c :=
  Function.update_self ..

theorem put_of_ne {p q : Nat} (h : q ≠ p) (v : Virtual) (c : Option Context) :
    (v.put p c).context q = v.context q :=
  Function.update_of_ne h ..

inductive Virtual.Step (v : Virtual) : Happening → Virtual → Prop
  | execute {user : Fin 15 → Nat} {psr : Psr} {pc : Nat} {c : Context} :
      v.context v.running = some c → psr.mode = c.psr.mode →
      Step v (.execute user psr pc) (v.put v.running (some { c with user, psr, pc }))
  | create {p : Nat} {proc : Process} : v.context p = none →
      Step v (.create p proc) (v.put p (some (WagtailPreemption.context proc.saved)))
  | ignore {sirIrq : Nat} {x : Returned} : sirIrq &&& 0xff ≠ timerIrq → Step v (.irq sirIrq x) v
  | switch {sirIrq next : Nat} {x : Returned} : sirIrq &&& 0xff = timerIrq →
      (next ≠ 0 → ∃ c, v.context next = some c ∧ c.waits = false) →
      Step v (.irq sirIrq x) { v with running := next }
  | answer {sirIrq next pid : Nat} {x : Returned} {c : Context} : sirIrq &&& 0xff = timerIrq →
      v.context next = some c → c.waits = true →
      Step v (.irq sirIrq x) { v.put next (some { c with
        user := Function.update c.user 0 pid
        waits := false }) with running := next }
  | exit {number word : Nat} {a : Allocation} {x : Returned} {c : Context} :
      v.context v.running = some c → called c.psr number = 1 →
      Step v (.svc number word a x) { v.put v.running none with running := 0 }
  | fork {number word pid : Nat} {a : Allocation} {x : Returned} {c : Context} :
      v.context v.running = some c → called c.psr number = 2 → v.context a.child = none →
      Step v (.svc number word a x) (Virtual.put
        (if a.usable then
          v.put a.child (some (WagtailPreemption.context ⟨childRegisters a.proc a.linked, 0⟩))
        else v) v.running (some (c.answered { x with r0 := pid })))
  | wait {number word : Nat} {a : Allocation} {x : Returned} {c : Context} :
      v.context v.running = some c → called c.psr number = 3 →
      Step v (.svc number word a x)
        { v.put v.running (some { c.behind with waits := true }) with running := 0 }
  | other {number word : Nat} {a : Allocation} {x : Returned} {c : Context} :
      v.context v.running = some c → called c.psr number ∉ [1, 2, 3] →
      Step v (.svc number word a x) (v.put v.running (some (c.answered { x with r0 := 0 })))
  | prefetchAbort {x : Returned} : Step v (.prefetchAbort x) v
  | dataAbort {x : Returned} {c : Context} : v.context v.running = some c →
      Step v (.dataAbort x)
        (v.put v.running (some { c with pc := c.psr.align (wrap (c.pc + 4)) }))
  | undef {c : Context} : v.context v.running = some c →
      Step v .undef (v.put v.running (some c.behind))

/-- The processors that the system amounts to. -/
def System.virtual (s : System) : Virtual where
  context p := (s.kernel.saved p).map fun saved =>
    if p = s.kernel.registerBlock then ⟨s.cpu.user, s.cpu.cpsr, s.pc, decide (saved.block ≠ 0)⟩
    else WagtailPreemption.context saved
  running := s.kernel.registerBlock

/-! ## The invariant -/

structure Sound (s : System) : Prop where
  valid : Valid s.kernel.view
  inUse : InUse s.kernel.view
  waiting : s.waiting = true ↔ s.kernel.registerBlock = 0
  running : s.waiting = false → bank s.cpu.cpsr.mode = usr ∧ s.pc < 2 ^ 32 ∧
    s.cpu.cpsr.align s.pc = s.pc
  unprivileged : ∀ p saved, s.kernel.saved p = some saved → Unprivileged saved.registers

variable {virtualToPhysical : Nat → Nat} {site : Site → Nat} {s t : System} {p : Nat} {k : Kernel}

theorem initial_sound (mmu : WagtailMmu.Mmu) (cpu : Cpu) : Sound (initial mmu cpu) where
  valid := valid_initial mmu
  inUse := inUse_initial mmu
  waiting := by simp [initial, WagtailScheduler.initial]
  running := fun h => by cases h
  unprivileged := fun _ _ h => by cases h

theorem Sound.busy (h : Sound s) : s.waiting = false ↔ s.kernel.registerBlock ≠ 0 := by
  rw [ne_eq, ← h.waiting, Bool.not_eq_true]

/-- What runs is a process that does not wait. -/
theorem Sound.exists_running (h : Sound s) (h0 : s.kernel.registerBlock ≠ 0) :
    ∃ proc, s.kernel.process s.kernel.registerBlock = some proc ∧ proc.block = 0 := by
  obtain ⟨bare, hbare⟩ := Option.ne_none_iff_exists'.mp (h.valid.registerBlock h0)
  obtain ⟨proc, hproc, rfl⟩ := exists_bareOf hbare
  exact ⟨proc, hproc, h.inUse.awake proc.bare hbare⟩

theorem Sound.virtual_running (h : Sound s) (h0 : s.kernel.registerBlock ≠ 0) :
    s.virtual.context s.virtual.running = some ⟨s.cpu.user, s.cpu.cpsr, s.pc, false⟩ := by
  obtain ⟨proc, hproc, hblock⟩ := h.exists_running h0
  simp [System.virtual, saved_some hproc, Process.saved, hblock]

/-- The contexts that are stored. -/
def contexts (k : Kernel) (p : Nat) : Option Context := (k.saved p).map context

theorem contexts_some {saved : Saved} (h : k.saved p = some saved) :
    contexts k p = some (context saved) := by
  rw [contexts, h, Option.map_some]

theorem virtual_waiting (hv : Valid s.kernel.view) (h0 : s.kernel.registerBlock = 0) :
    s.virtual = ⟨contexts s.kernel, 0⟩ := by
  refine Virtual.ext (funext fun p => ?_) h0
  have hnull : s.kernel.saved 0 = none := saved_none (bareOf_none.mp hv.kin.null)
  by_cases hp : p = 0
  · simp [System.virtual, contexts, hp, hnull]
  · simp [System.virtual, contexts, h0, hp]

theorem virtual_restored {saved : Saved} (h : s.kernel.saved s.kernel.registerBlock = some saved)
    (huser : s.cpu.user = saved.registers.r) (hpsr : s.cpu.cpsr = Psr.ofWord saved.registers.spsr)
    (hpc : s.pc = s.cpu.cpsr.align (sub saved.registers.returnAddress 4)) :
    s.virtual = ⟨contexts s.kernel, s.kernel.registerBlock⟩ := by
  refine Virtual.ext (funext fun p => ?_) rfl
  by_cases hp : p = s.kernel.registerBlock
  · subst hp
    simp [System.virtual, contexts, h, context, huser, hpsr, hpc]
  · simp [System.virtual, contexts, hp]

/-- The context that an exception stores is the one that runs, but for the place to go on. -/
theorem Sound.stored_contexts {link : Nat} (h : Sound s) (h0 : s.kernel.registerBlock ≠ 0)
    (hk : storeContext s.kernel (s.registers link) = some k) :
    contexts k = (s.virtual.put s.virtual.running
      (some ⟨s.cpu.user, s.cpu.cpsr, s.cpu.cpsr.align (sub link 4), false⟩)).context := by
  obtain ⟨proc, hproc, hblock⟩ := h.exists_running h0
  have hsaved := storeContext_saved hk
  rw [if_neg h0, saved_some hproc, Option.map_some] at hsaved
  funext p
  by_cases hp : p = s.kernel.registerBlock
  · subst hp
    simp [contexts, hsaved, Virtual.put, System.virtual, context, System.registers, Process.saved,
      hblock]
  · simp [contexts, hsaved, Virtual.put, System.virtual, hp]

/-! ## Exceptions -/

theorem take_user {mode : BitVec 5} (hmode : mode ≠ usr) (link : Nat) :
    (s.take mode link).cpu.user = s.cpu.user :=
  user_congr rfl rfl (Function.update_of_ne hmode.symm ..)

theorem take_lr {mode : BitVec 5} (hbank : bank mode = mode) (link : Nat) :
    (s.take mode link).cpu.get .lr = wrap link := by
  show Function.update s.cpu.lr mode (wrap link) (bank mode) = wrap link
  rw [hbank, Function.update_self]

theorem take_spsr (mode : BitVec 5) (link : Nat) :
    (s.take mode link).cpu.spsr mode = s.cpu.cpsr := by
  show Function.update s.cpu.spsr mode s.cpu.cpsr mode = s.cpu.cpsr
  rw [Function.update_self]

theorem take_stored {mode : BitVec 5} (hmode : mode ≠ usr) (link : Nat) :
    stored (s.take mode link) (wrap link) =
      s.registers (if mode = svc then wrap (wrap link + 4) else wrap link) := by
  have hspsr : (s.take mode link).cpu.mrsSpsr = s.cpu.cpsr.word :=
    congrArg Psr.word (take_spsr mode link)
  rw [stored, take_user hmode, hspsr]
  rfl

theorem sub_wrap {pc : Nat} (h : pc < 2 ^ 32) : sub (wrap (pc + 4)) 4 = pc := by
  simp only [sub, wrap]
  omega

/-! ## Interrupts -/

theorem unprivileged_stored {link : Nat} (h : Sound s)
    (hk : storeContext s.kernel (s.registers link) = some k) {saved : Saved}
    (hp : k.saved p = some saved) : Unprivileged saved.registers := by
  have hsaved := storeContext_saved hk
  split_ifs at hsaved with h0
  · rw [hsaved] at hp
    exact h.unprivileged p saved hp
  · by_cases hrb : p = s.kernel.registerBlock
    · rw [hsaved, hrb, Function.update_self] at hp
      obtain ⟨old, -, rfl⟩ := Option.map_eq_some_iff.mp hp
      show bank (Psr.ofWord s.cpu.cpsr.word).mode = usr
      rw [Psr.ofWord_word]
      exact (h.running (h.busy.mpr h0)).1
    · rw [hsaved, Function.update_of_ne hrb] at hp
      exact h.unprivileged p saved hp

theorem align_le (psr : Psr) (pc : Nat) : psr.align pc ≤ pc := by
  unfold Psr.align
  split_ifs <;> omega

theorem align_align (psr : Psr) (pc : Nat) : psr.align (psr.align pc) = psr.align pc := by
  unfold Psr.align
  split_ifs <;> omega

theorem sub_lt (a b : Nat) : sub a b < 2 ^ 32 := Nat.mod_lt _ (by decide)

/-- A system that waits, without a process that runs. -/
theorem Sound.idle (hv : Valid s.kernel.view) (hu : InUse s.kernel.view) (hwaiting : s.waiting = true)
    (h0 : s.kernel.registerBlock = 0)
    (hunprivileged : ∀ p saved, s.kernel.saved p = some saved → Unprivileged saved.registers) :
    Sound s where
  valid := hv
  inUse := hu
  waiting := ⟨fun _ => h0, fun _ => hwaiting⟩
  running := fun h => by
    rw [hwaiting] at h
    cases h
  unprivileged := hunprivileged

/-- What the interrupt comes to is what the scheduler has chosen. -/
theorem switched_virtual {o : Outcome} (h : Switched k o) (hv : Valid k.view) (hu : InUse k.view)
    (hhalted : k.halted = true → k.registerBlock = 0)
    (hunprivileged : ∀ p saved, k.saved p = some saved → Unprivileged saved.registers) :
    Sound (s.deliver o) ∧ (s.deliver o).kernel = k ∧
      (s.deliver o).virtual = ⟨contexts k, k.registerBlock⟩ := by
  cases h with
  | @halts cpu hk =>
    have h0 := hhalted hk
    refine ⟨.idle hv hu rfl h0 hunprivileged, rfl, ?_⟩
    rw [h0]
    exact virtual_waiting (s := ⟨⟨cpu, k⟩, s.pc, true⟩) hv h0
  | @waits cpu hk h0 =>
    refine ⟨.idle hv hu rfl h0 hunprivileged, rfl, ?_⟩
    rw [h0]
    exact virtual_waiting (s := ⟨⟨cpu, k⟩, s.pc, true⟩) hv h0
  | @resumes cpu proc hk h0 hproc huser hpsr =>
    refine ⟨⟨hv, hu, ?_, fun _ => ?_, hunprivileged⟩, rfl, ?_⟩
    · exact ⟨fun h => (Bool.false_ne_true h).elim, fun h => absurd h h0⟩
    · refine ⟨?_, ?_, align_align ..⟩
      · show bank cpu.cpsr.mode = usr
        rw [hpsr]
        exact hunprivileged _ _ (saved_some hproc)
      · exact Nat.lt_of_le_of_lt (align_le ..) (sub_lt ..)
    · exact virtual_restored (s := s.deliver _) (saved_some hproc) huser hpsr rfl

theorem chooses_unprivileged {k₁ : Kernel} (h : Chooses k₁ k)
    (hunprivileged : ∀ p saved, k₁.saved p = some saved → Unprivileged saved.registers)
    {saved : Saved} (hp : k.saved p = some saved) : Unprivileged saved.registers := by
  cases h with
  | keeps hsaved _ => exact hunprivileged p saved (hsaved ▸ hp)
  | runs hsaved _ _ => exact hunprivileged p saved (hsaved ▸ hp)
  | @answers old b hold _ _ _ hsaved =>
    rw [hsaved] at hp
    by_cases hrb : p = k.registerBlock
    · rw [hrb, Function.update_self] at hp
      obtain rfl := Option.some.inj hp
      have hold' : Unprivileged old.registers := hunprivileged _ _ hold
      exact hold'
    · rw [Function.update_of_ne hrb] at hp
      exact hunprivileged p saved hp

/-- The processors before and behind the choice of a process. -/
theorem chooses_step {v : Virtual} {k₁ : Kernel} {sirIrq : Nat} {x : Returned}
    (h : Chooses k₁ k) (hsir : sirIrq &&& 0xff = timerIrq) (hv : contexts k₁ = v.context)
    (hrunning : k₁.registerBlock = v.running)
    (hawake : v.running ≠ 0 → ∃ c, v.context v.running = some c ∧ c.waits = false) :
    v.Step (.irq sirIrq x) ⟨contexts k, k.registerBlock⟩ := by
  have hsame : k.saved = k₁.saved → contexts k = v.context := by
    intro hsaved
    rw [← hv]
    funext p
    rw [contexts, contexts, hsaved]
  cases h with
  | keeps hsaved hrb =>
    rw [hsame hsaved, hrb, hrunning]
    exact .switch hsir hawake
  | runs hsaved hrb hblock =>
    rw [hsame hsaved]
    refine .switch hsir fun _ => ⟨context _, ?_, decide_eq_false (not_not.mpr hblock)⟩
    rw [← hv, contexts_some hrb]
  | @answers old b hold hblock _ _ hsaved =>
    have hcontext : v.context k.registerBlock = some (context old) := by
      rw [← hv, contexts_some hold]
    have hanswer := @Virtual.Step.answer v sirIrq k.registerBlock b.terminatedPid x _ hsir
      hcontext (decide_eq_true hblock)
    have hcontexts : contexts k = (v.put k.registerBlock (some { context old with
        user := Function.update (context old).user 0 b.terminatedPid
        waits := false })).context := by
      funext p
      by_cases hp : p = k.registerBlock
      · rw [hp, put_self]
        exact contexts_some (by rw [hsaved, Function.update_self])
      · rw [put_of_ne hp, ← hv, contexts, hsaved, Function.update_of_ne hp, contexts]
    rw [hcontexts]
    exact hanswer

theorem timer_number {sirIrq : Nat} (h : sirIrq &&& 0xff = timerIrq) :
    sirIrq &&& 0x7f = timerIrq := by
  have hbyte : sirIrq &&& 0xff = sirIrq % 2 ^ 8 := Nat.and_two_pow_sub_one_eq_mod sirIrq 8
  have hnumber : sirIrq &&& 0x7f = sirIrq % 2 ^ 7 := Nat.and_two_pow_sub_one_eq_mod sirIrq 7
  rw [hnumber]
  rw [hbyte, timerIrq] at h
  rw [timerIrq]
  omega

/-- After an interrupt has stored the context, every process has its own. -/
theorem Sound.stored_same (h : Sound s)
    (hk : storeContext s.kernel (s.registers (wrap (s.pc + 4))) = some k) :
    contexts k = s.virtual.context := by
  by_cases h0 : s.kernel.registerBlock = 0
  · have hsaved := storeContext_saved hk
    rw [if_pos h0] at hsaved
    rw [virtual_waiting h.valid h0]
    funext p
    exact congrArg (Option.map context) (congrFun hsaved p)
  · obtain ⟨-, hpc, halign⟩ := h.running (h.busy.mpr h0)
    rw [h.stored_contexts h0 hk, sub_wrap hpc, halign, ← h.virtual_running h0]
    exact Function.update_eq_self ..

/-- The timer's interrupt is one of the scheduler, for the context that it has interrupted. -/
theorem Sound.irq_timer {sirIrq : Nat} {x : Returned} (h : Sound s)
    (hsir : sirIrq &&& 0xff = timerIrq) (hhalted : s.kernel.halted = false)
    (hstep : s.step virtualToPhysical site (.irq sirIrq x) = some t) :
    EntryStep virtualToPhysical s.kernel
      (.action (.event (.interrupt (s.registers (wrap (s.pc + 4)))))) t.kernel ∧
      Sound t ∧ s.virtual.Step (.irq sirIrq x) t.virtual := by
  obtain ⟨o, ho, rfl⟩ := Option.map_eq_some_iff.mp hstep
  obtain ⟨cpsr, hcpsr, hirq⟩ := @intIrq_timer (s.take irq (s.pc + 4)) virtualToPhysical site
    sirIrq x hsir rfl
  rw [hirq] at ho
  set m : Machine := ⟨{ (s.take irq (s.pc + 4)).cpu.resetStack with cpsr },
    (s.take irq (s.pc + 4)).kernel⟩ with hm
  have hbank : bank m.cpu.mode ≠ usr := by
    show bank cpsr.mode ≠ usr
    rw [hcpsr]
    decide
  have hlr : m.cpu.get .lr = wrap (s.pc + 4) := by
    show Function.update s.cpu.lr irq (wrap (s.pc + 4)) (bank cpsr.mode) = _
    rw [hcpsr]
    exact Function.update_self ..
  have hregisters : stored m (m.cpu.get .lr) = s.registers (wrap (s.pc + 4)) := by
    have htake := @take_stored s irq (by decide) (s.pc + 4)
    rw [if_neg (by decide)] at htake
    rw [hlr, ← htake]
    simp only [stored, hm, Cpu.mrsSpsr, Cpu.mode, hcpsr]
    rfl
  have hnumber := timer_number hsir
  cases hk : perform virtualToPhysical s.kernel (.interrupt (s.registers (wrap (s.pc + 4)))) with
  | none =>
    rw [switchContext_none hnumber hbank (by rw [hregisters]; exact hk)] at ho
    cases ho
  | some k =>
    have hfork : ForkStep virtualToPhysical s.kernel
        (.event (.interrupt (s.registers (wrap (s.pc + 4))))) k :=
      ⟨hhalted, ⟨trivial, fun p proc he => by cases he⟩, hk⟩
    have hv := step_valid h.valid hfork
    have hu := moves_inUse h.valid (step_moves h.valid hfork) h.inUse
    have hhalts := moves_halted h.valid (step_moves h.valid hfork) hhalted
    obtain ⟨o', ho', hswitched⟩ := @switchContext_some m virtualToPhysical site sirIrq x k
      hnumber hbank
      (by rw [hregisters]; exact hk) (fun h0 hnone => hv.registerBlock h0 (bareOf_none.mpr hnone))
    obtain rfl := Option.some.inj (ho.symm.trans ho')
    obtain ⟨k₁, hk₁, hinterrupt⟩ := Option.bind_eq_some_iff.mp hk
    obtain ⟨k₁', hk₁', hview, hrest⟩ := h.valid.storeContext (s.registers (wrap (s.pc + 4)))
    obtain rfl := Option.some.inj (hk₁.symm.trans hk₁')
    have hchooses := interrupt_chooses (hview ▸ h.valid) hinterrupt
    have hcontexts := h.stored_same hk₁
    obtain ⟨hsound, hkernel, hvirtual⟩ := switched_virtual (s := s) hswitched hv hu hhalts
      fun p saved => chooses_unprivileged hchooses fun p saved => unprivileged_stored h hk₁
    rw [hkernel, hvirtual]
    refine ⟨hfork, hsound, chooses_step hchooses hsir hcontexts (by rw [hrest]; rfl) fun h0 => ?_⟩
    exact ⟨_, h.virtual_running h0, rfl⟩

/-! ## What the kernel does not see -/

theorem put_same {v : Virtual} {c : Context} (h : v.context p = some c) : v.put p (some c) = v := by
  rw [Virtual.put, ← h, Function.update_eq_self]

/-- What runs goes on, with other registers perhaps. -/
theorem Sound.resumed (h : Sound s) (hkernel : t.kernel = s.kernel) (hwaiting : t.waiting = s.waiting)
    (hmode : t.cpu.cpsr.mode = s.cpu.cpsr.mode)
    (hpc : s.waiting = false → t.pc < 2 ^ 32 ∧ t.cpu.cpsr.align t.pc = t.pc) :
    Sound t ∧ t.virtual = if s.kernel.registerBlock = 0 then s.virtual else
      s.virtual.put s.virtual.running (some ⟨t.cpu.user, t.cpu.cpsr, t.pc, false⟩) := by
  refine ⟨⟨hkernel ▸ h.valid, hkernel ▸ h.inUse, ?_, fun hrun => ?_, hkernel ▸ h.unprivileged⟩, ?_⟩
  · rw [hwaiting, hkernel]
    exact h.waiting
  · rw [hwaiting] at hrun
    exact ⟨hmode ▸ (h.running hrun).1, hpc hrun⟩
  · split_ifs with h0
    · rw [virtual_waiting h.valid h0, virtual_waiting (hkernel ▸ h.valid) (hkernel ▸ h0), hkernel]
    · obtain ⟨proc, hproc, hblock⟩ := h.exists_running h0
      refine Virtual.ext (funext fun p => ?_) (congrArg Kernel.registerBlock hkernel)
      by_cases hp : p = s.kernel.registerBlock
      · rw [hp]
        refine Eq.trans ?_ (put_self s.virtual _ _).symm
        simp [System.virtual, hkernel, saved_some hproc, Process.saved, hblock]
      · refine Eq.trans ?_ (put_of_ne (p := s.kernel.registerBlock) hp s.virtual _).symm
        simp [System.virtual, hkernel, hp]

/-- What runs goes on as it was. -/
theorem Sound.unseen (h : Sound s) (hkernel : t.kernel = s.kernel) (hwaiting : t.waiting = s.waiting)
    (huser : t.cpu.user = s.cpu.user) (hcpsr : t.cpu.cpsr = s.cpu.cpsr)
    (hpc : s.waiting = false → t.pc = s.pc) : Sound t ∧ t.virtual = s.virtual := by
  obtain ⟨hsound, hvirtual⟩ := h.resumed hkernel hwaiting (by rw [hcpsr]) fun hrun => by
    rw [hpc hrun, hcpsr]
    exact (h.running hrun).2
  refine ⟨hsound, hvirtual.trans ?_⟩
  split_ifs with h0
  · rfl
  · rw [huser, hcpsr, hpc (h.busy.mpr h0)]
    exact put_same (h.virtual_running h0)

theorem Sound.irq_other {sirIrq : Nat} {x : Returned} (h : Sound s)
    (hsir : sirIrq &&& 0xff ≠ timerIrq) (hnumber : sirIrq &&& 0x7f ≠ timerIrq)
    (hhalted : s.kernel.halted = false)
    (hstep : s.step virtualToPhysical site (.irq sirIrq x) = some t) :
    t.kernel = s.kernel ∧ Sound t ∧ s.virtual.Step (.irq sirIrq x) t.virtual := by
  obtain ⟨o, ho, rfl⟩ := Option.map_eq_some_iff.mp hstep
  have hkernel : handledKernel virtualToPhysical (s.take irq (s.pc + 4)).kernel sirIrq =
      some s.kernel := by
    rw [handledKernel, if_neg hnumber]
    rfl
  rw [intIrq_returns hsir rfl hkernel hhalted] at ho
  obtain rfl := Option.some.inj ho
  have hlr : (s.take irq (s.pc + 4)).cpu.get .lr = wrap (s.pc + 4) := take_lr rfl _
  rw [take_spsr, hlr]
  obtain ⟨hsound, hvirtual⟩ := h.unseen (t := ⟨⟨{ (s.take irq (s.pc + 4)).cpu.resetStack with
    cpsr := s.cpu.cpsr }, s.kernel⟩, s.cpu.cpsr.align (sub (wrap (s.pc + 4)) 4), s.waiting⟩)
    rfl rfl (@take_user s irq (by decide) (s.pc + 4)) rfl fun hrun => by
      obtain ⟨-, hpc, halign⟩ := h.running hrun
      exact (congrArg _ (sub_wrap hpc)).trans halign
  exact ⟨rfl, hsound, (congrArg (s.virtual.Step _) hvirtual).mpr (.ignore hsir)⟩

/-- An abort, with the offset of its link: what runs goes on that much further on, less four. -/
theorem Sound.abort {offset : Nat} {x : Returned} (h : Sound s) (hrun : s.waiting = false)
    (hstep : (reportAbort (s.take abt (s.pc + (offset + 4))) x).map s.deliver = some t) :
    t.kernel = s.kernel ∧ Sound t ∧ t.virtual = s.virtual.put s.virtual.running
      (some ⟨s.cpu.user, s.cpu.cpsr, s.cpu.cpsr.align (wrap (s.pc + offset)), false⟩) := by
  have h0 := h.busy.mp hrun
  set m := s.take abt (s.pc + (offset + 4)) with hm
  have hlr : m.cpu.get .lr = wrap (s.pc + (offset + 4)) := take_lr rfl _
  have hspsr : m.cpu.spsr m.cpu.mode = s.cpu.cpsr := take_spsr abt _
  have hpc : sub (wrap (s.pc + (offset + 4))) 4 = wrap (s.pc + offset) := by
    simp only [sub, wrap]
    omega
  rw [reportAbort_eq, hlr, hspsr, hpc, Option.map_some] at hstep
  obtain rfl := Option.some.inj hstep
  obtain ⟨hsound, hvirtual⟩ := h.resumed (t := ⟨⟨{ m.cpu.set .lr (wrap (s.pc + offset)) with
    cpsr := s.cpu.cpsr }, s.kernel⟩, s.cpu.cpsr.align (wrap (s.pc + offset)), s.waiting⟩)
    rfl rfl rfl fun _ => ⟨Nat.lt_of_le_of_lt (align_le ..) (Word.wrap_lt _), align_align ..⟩
  rw [if_neg h0] at hvirtual
  have huser : Cpu.user { m.cpu.set .lr (wrap (s.pc + offset)) with cpsr := s.cpu.cpsr } =
      s.cpu.user := (set_lr_user (c := m.cpu) (show bank abt ≠ usr by decide) (wrap (s.pc + offset))).trans
      (take_user (by decide) _)
  refine ⟨rfl, hsound, hvirtual.trans ?_⟩
  exact congrArg (fun user => s.virtual.put _ (some ⟨user, _, _, _⟩)) huser

theorem Sound.undef (h : Sound s) (hrun : s.waiting = false)
    (hstep : s.step virtualToPhysical site .undef = some t) :
    t.kernel = s.kernel ∧ Sound t ∧ s.virtual.Step .undef t.virtual := by
  have h0 := h.busy.mp hrun
  obtain rfl := Option.some.inj hstep
  set m := s.take und (s.pc + length s.cpu.cpsr) with hm
  have hlr : m.cpu.get .lr = wrap (s.pc + length s.cpu.cpsr) := take_lr rfl _
  have hspsr : m.cpu.leave.cpsr = s.cpu.cpsr := take_spsr und (s.pc + length s.cpu.cpsr)
  have huser : m.cpu.leave.user = s.cpu.user :=
    @take_user s und (by decide) (s.pc + length s.cpu.cpsr)
  obtain ⟨hsound, hvirtual⟩ := h.resumed (t := s.deliver (intUndef m)) rfl rfl
    (congrArg Psr.mode hspsr) fun _ => by
      show m.cpu.leave.cpsr.align (m.cpu.get .lr) < _ ∧ _
      rw [hlr]
      exact ⟨Nat.lt_of_le_of_lt (align_le ..) (Word.wrap_lt _), align_align ..⟩
  rw [if_neg h0] at hvirtual
  have hpsr : (s.deliver (intUndef m)).cpu.cpsr = s.cpu.cpsr := hspsr
  have hpc : (s.deliver (intUndef m)).pc =
      s.cpu.cpsr.align (wrap (s.pc + length s.cpu.cpsr)) := by
    rw [← hlr, ← hspsr]
    rfl
  have huser' : (s.deliver (intUndef m)).cpu.user = s.cpu.user := huser
  rw [hpsr, hpc, huser'] at hvirtual
  refine ⟨rfl, hsound, (congrArg (s.virtual.Step _) hvirtual).mpr ?_⟩
  exact .undef (h.virtual_running h0)

theorem Sound.execute {user : Fin 15 → Nat} {psr : Psr} {pc : Nat} (h : Sound s)
    (henabled : Happening.Enabled s (.execute user psr pc))
    (hstep : s.step virtualToPhysical site (.execute user psr pc) = some t) :
    t.kernel = s.kernel ∧ Sound t ∧ s.virtual.Step (.execute user psr pc) t.virtual := by
  obtain ⟨hrun, hmode, hpc, halign⟩ := henabled
  have h0 := h.busy.mp hrun
  obtain rfl := Option.some.inj hstep
  obtain ⟨hsound, hvirtual⟩ := h.resumed (t := ⟨⟨{ s.cpu.setUser user with cpsr := psr },
    s.kernel⟩, pc, s.waiting⟩) rfl rfl hmode fun _ => ⟨hpc, halign⟩
  rw [if_neg h0] at hvirtual
  refine ⟨rfl, hsound, ?_⟩
  have huser : Cpu.user { s.cpu.setUser user with cpsr := psr } = user := setUser_user s.cpu user
  refine (congrArg (s.virtual.Step _) hvirtual).mpr ?_
  have hstep := @Virtual.Step.execute s.virtual user psr pc _ (h.virtual_running h0) hmode
  exact (congrArg (fun user' => s.virtual.Step (.execute user psr pc)
    (s.virtual.put _ (some ⟨user', psr, pc, false⟩))) huser).mpr hstep

theorem Sound.create {proc : Process} (h : Sound s) (hhalted : s.kernel.halted = false)
    (henabled : Unprivileged proc.registers)
    (hentry : (Action.event (.schedule p proc)).Enabled s.kernel)
    (hstep : s.step virtualToPhysical site (.create p proc) = some t) :
    EntryStep virtualToPhysical s.kernel (.action (.event (.schedule p proc))) t.kernel ∧
      Sound t ∧ s.virtual.Step (.create p proc) t.virtual := by
  rw [System.step] at hstep
  obtain ⟨k, hk, ht⟩ := Option.bind_eq_some_iff.mp hstep
  obtain rfl := Option.some.inj ht
  have hfork : ForkStep virtualToPhysical s.kernel (.event (.schedule p proc)) k :=
    ⟨hhalted, hentry, hk⟩
  have hv := step_valid h.valid hfork
  have hu := moves_inUse h.valid (step_moves h.valid hfork) h.inUse
  obtain ⟨⟨hp, hfree, hmade⟩, -⟩ := hentry
  have hsaved : k.saved = Function.update s.kernel.saved p (some proc.saved) := by
    obtain rfl := Option.some.inj hk
    exact saved_update ..
  have hrb : k.registerBlock = s.kernel.registerBlock := by
    obtain rfl := Option.some.inj hk
    rfl
  have hne : p ≠ s.kernel.registerBlock := by
    rintro rfl
    exact h.valid.registerBlock hp (bareOf_none.mpr hfree)
  have hstep := @Virtual.Step.create s.virtual p proc (by simp [System.virtual, saved_none hfree])
  refine ⟨hfork, ⟨hv, hu, ?_, h.running, fun q saved hq => ?_⟩, ?_⟩
  · show s.waiting = true ↔ k.registerBlock = 0
    rw [hrb]
    exact h.waiting
  · have hq' : k.saved q = some saved := hq
    rw [hsaved] at hq'
    by_cases hqp : q = p
    · rw [hqp, Function.update_self] at hq'
      obtain rfl := Option.some.inj hq'
      exact henabled
    · rw [Function.update_of_ne hqp] at hq'
      exact h.unprivileged q saved hq'
  · have hvirtual : System.virtual { s with machine := { s.machine with kernel := k } } =
        s.virtual.put p (some (context proc.saved)) := by
      refine Virtual.ext (funext fun q => ?_) hrb
      by_cases hqp : q = p
      · rw [hqp, put_self]
        simp only [System.virtual, hsaved, Function.update_self, Option.map_some]
        exact congrArg some (if_neg fun he => hne (he.trans hrb))
      · rw [put_of_ne hqp]
        simp only [System.virtual, hsaved, Function.update_of_ne hqp]
        rw [show System.kernel _ = k from rfl, hrb]
    exact (congrArg (s.virtual.Step _) hvirtual).mpr hstep

/-! ## System calls -/

theorem svc_number {psr : Psr} {number : Nat} (h : called psr number < 256) :
    svcHalfword psr number &&& 0xff = called psr number := by
  have hbyte : ∀ n, n &&& 0xff = n % 2 ^ 8 := fun n => Nat.and_two_pow_sub_one_eq_mod n 8
  rw [hbyte]
  unfold svcHalfword called at *
  split_ifs at * <;> omega

theorem svc_even {psr : Psr} {pc : Nat} (h : psr.align pc = pc) : wrap (pc + length psr) % 2 = 0 := by
  unfold Psr.align at h
  unfold length wrap
  split_ifs at * <;> omega

/-- The context that a system call stores goes on behind it. -/
def System.called (s : System) : Registers :=
  s.registers (wrap (wrap (s.pc + length s.cpu.cpsr) + 4))

/-- A call as its handler leaves it: it waits, or goes on with a result. -/
theorem Sound.svc_cases {number word : Nat} {a : Allocation} {x : Returned} (h : Sound s)
    (hrun : s.waiting = false) (hnumber : called s.cpu.cpsr number < 256)
    (hstep : s.step virtualToPhysical site (.svc number word a x) = some t) :
    ∃ k₁ k result, storeContext s.kernel s.called = some k₁ ∧
      handledCall virtualToPhysical k₁ s.cpu.user (called s.cpu.cpsr number) a = some (k, result) ∧
      t.kernel = k ∧ (result = none → t.waiting = true) ∧
      ∀ value, result = some value → t.waiting = false ∧
        (⟨t.cpu.user, t.cpu.cpsr, t.pc, false⟩ : Context) = Context.answered
          ⟨s.cpu.user, s.cpu.cpsr, s.pc, false⟩ { x with r0 := value } := by
  obtain ⟨o, ho, rfl⟩ := Option.map_eq_some_iff.mp hstep
  obtain ⟨-, hpc, halign⟩ := h.running hrun
  set m := s.take svc (s.pc + length s.cpu.cpsr) with hm
  have hlr : m.cpu.get .lr = wrap (s.pc + length s.cpu.cpsr) := take_lr rfl _
  obtain ⟨cpu, -, hsvc⟩ := @intSvc_eq virtualToPhysical site m
    (svcHalfword s.cpu.cpsr number) word a x rfl (by rw [hlr]; exact svc_even halign)
  have hstored : stored m (m.cpu.get .lr) = s.called := by
    rw [hlr, take_stored (by decide), if_pos rfl]
    rfl
  have huser : m.cpu.user = s.cpu.user := @take_user s svc (by decide) _
  rw [hsvc, hstored, svc_number hnumber, huser] at ho
  obtain ⟨⟨k, result⟩, hmade, rfl⟩ := Option.map_eq_some_iff.mp ho
  obtain ⟨k₁, hk₁, hk⟩ := Option.bind_eq_some_iff.mp hmade
  refine ⟨k₁, k, result, hk₁, hk, ?_, ?_, ?_⟩
  · cases result <;> rfl
  · rintro rfl
    rfl
  · rintro value rfl
    refine ⟨hrun, ?_⟩
    set cpu' : Cpu := { m.cpu.resetStack with
      r := answered m.cpu.r { x with r0 := value }
      cpsr := m.cpu.spsr svc } with hcpu'
    have hpsr : cpu'.cpsr = s.cpu.cpsr := take_spsr svc (s.pc + length s.cpu.cpsr)
    have hpc' : cpu'.cpsr.align (m.cpu.get .lr) =
        s.cpu.cpsr.align (wrap (s.pc + length s.cpu.cpsr)) := by
      rw [hpsr, hlr]
    have huser' : cpu'.user = (Context.answered ⟨s.cpu.user, s.cpu.cpsr, s.pc, false⟩
        { x with r0 := value }).user := by
      rw [← huser]
      funext i
      fin_cases i <;> rfl
    show (⟨cpu'.user, cpu'.cpsr, cpu'.cpsr.align (m.cpu.get .lr), false⟩ : Context) = _
    rw [huser', hpc', hpsr]
    rfl

/-- After a call that is returned from, every process but the caller has what is stored. -/
theorem virtual_put {saved : Saved} (h : s.kernel.saved s.kernel.registerBlock = some saved)
    (hblock : saved.block = 0) :
    s.virtual = Virtual.put ⟨contexts s.kernel, s.kernel.registerBlock⟩ s.kernel.registerBlock
      (some ⟨s.cpu.user, s.cpu.cpsr, s.pc, false⟩) := by
  refine Virtual.ext (funext fun p => ?_) rfl
  by_cases hp : p = s.kernel.registerBlock
  · rw [hp, put_self]
    simp [System.virtual, h, hblock]
  · rw [put_of_ne hp]
    simp [System.virtual, contexts, hp]

/-- The kernel after a system call has stored its context. -/
structure Stores (s : System) (k₁ : Kernel) : Prop where
  saved : k₁.saved = Function.update s.kernel.saved s.kernel.registerBlock (some ⟨s.called, 0⟩)
  current : k₁.currentProcess = s.kernel.currentProcess
  registerBlock : k₁.registerBlock = s.kernel.registerBlock
  contexts : WagtailPreemption.contexts k₁ = (s.virtual.put s.virtual.running (some (Context.behind
    ⟨s.cpu.user, s.cpu.cpsr, s.pc, false⟩))).context

theorem Sound.stores {k₁ : Kernel} (h : Sound s) (hrun : s.waiting = false)
    (hk₁ : storeContext s.kernel s.called = some k₁) : Stores s k₁ := by
  have h0 := h.busy.mp hrun
  obtain ⟨proc, hproc, hblock⟩ := h.exists_running h0
  obtain ⟨k₁', hk₁', -, hrest⟩ := h.valid.storeContext s.called
  obtain rfl := Option.some.inj (hk₁.symm.trans hk₁')
  have hsaved := storeContext_saved hk₁
  have hprocess : proc.saved.block = 0 := hblock
  rw [if_neg h0, saved_some hproc, Option.map_some, hprocess] at hsaved
  refine ⟨hsaved, by rw [hrest], by rw [hrest], ?_⟩
  rw [h.stored_contexts h0 hk₁, sub_wrap (Word.wrap_lt _)]
  rfl

theorem Sound.called_unprivileged (h : Sound s) (hrun : s.waiting = false) :
    Unprivileged s.called := by
  show bank (Psr.ofWord s.cpu.cpsr.word).mode = usr
  rw [Psr.ofWord_word]
  exact (h.running hrun).1

theorem Stores.contexts_update {k₁ : Kernel} {saved : Option Saved} (hs : Stores s k₁)
    (h : k.saved = Function.update k₁.saved s.kernel.registerBlock saved) :
    WagtailPreemption.contexts k =
      (s.virtual.put s.virtual.running (saved.map context)).context := by
  funext p
  by_cases hp : p = s.kernel.registerBlock
  · rw [hp]
    refine Eq.trans ?_ (put_self s.virtual _ _).symm
    rw [WagtailPreemption.contexts, h, Function.update_self]
  · refine Eq.trans ?_ (put_of_ne (p := s.kernel.registerBlock) hp s.virtual _).symm
    rw [WagtailPreemption.contexts, h, Function.update_of_ne hp]
    refine (congrFun hs.contexts p).trans ?_
    exact put_of_ne (p := s.kernel.registerBlock) hp s.virtual _

theorem unprivileged_update {k₁ : Kernel} {q : Nat} {made : Option Saved}
    (hk₁ : ∀ p saved, k₁.saved p = some saved → Unprivileged saved.registers)
    (h : k.saved = Function.update k₁.saved q made)
    (hmade : ∀ saved ∈ made, Unprivileged saved.registers) :
    ∀ p saved, k.saved p = some saved → Unprivileged saved.registers := by
  intro p saved hp
  rw [h] at hp
  by_cases hpq : p = q
  · rw [hpq, Function.update_self] at hp
    exact hmade saved hp
  · rw [Function.update_of_ne hpq] at hp
    exact hk₁ p saved hp

theorem Stores.unprivileged {k₁ : Kernel} (hs : Stores s k₁) (h : Sound s)
    (hrun : s.waiting = false) :
    ∀ p saved, k₁.saved p = some saved → Unprivileged saved.registers :=
  unprivileged_update h.unprivileged hs.saved fun saved hsaved => by
    obtain rfl := Option.some.inj hsaved
    exact h.called_unprivileged hrun

/-- The caller does not go on. -/
theorem Sound.exit {number word : Nat} {a : Allocation} {x : Returned} (h : Sound s)
    (hhalted : s.kernel.halted = false) (hrun : s.waiting = false)
    (hnumber : called s.cpu.cpsr number = 1)
    (henabled : (callEntry s.called 1 a).Enabled s.kernel)
    (hstep : s.step virtualToPhysical site (.svc number word a x) = some t) :
    EntryStep virtualToPhysical s.kernel (callEntry s.called 1 a) t.kernel ∧
      Sound t ∧ s.virtual.Step (.svc number word a x) t.virtual := by
  obtain ⟨k₁, k, result, hk₁, hk, rfl, hwaits, -⟩ := h.svc_cases hrun (by rw [hnumber]; decide) hstep
  rw [hnumber] at hk
  obtain ⟨k', hk', hmade⟩ := Option.map_eq_some_iff.mp hk
  obtain ⟨rfl, rfl⟩ := Prod.mk.inj hmade
  have hperform : performAction virtualToPhysical s.kernel
      (.event (.exit s.called (s.called.r 0))) = some t.kernel := by
    simp only [performAction, perform, hk₁, Option.bind_eq_bind, Option.bind_some]
    exact hk'
  have hfork : ForkStep virtualToPhysical s.kernel (.event (.exit s.called (s.called.r 0)))
      t.kernel := ⟨hhalted, henabled, hperform⟩
  have hv := step_valid h.valid hfork
  have hu := moves_inUse h.valid (step_moves h.valid hfork) h.inUse
  have hstores := h.stores hrun hk₁
  obtain ⟨hsaved, hrb⟩ := syscallExit_saved hk'
  have hcur : s.kernel.registerBlock = s.kernel.currentProcess :=
    h.inUse.registerBlock henabled.1
  rw [hstores.current, ← hcur] at hsaved
  have hcontexts := hstores.contexts_update hsaved
  refine ⟨hfork, .idle hv hu (hwaits rfl) hrb (unprivileged_update (hstores.unprivileged h hrun)
    hsaved fun saved hsaved => by cases hsaved), ?_⟩
  rw [virtual_waiting hv hrb, hcontexts]
  exact .exit (h.virtual_running (h.busy.mp hrun)) hnumber

/-- The caller goes on behind the call when the wait has ended. -/
theorem Sound.wait {number word : Nat} {a : Allocation} {x : Returned} (h : Sound s)
    (hhalted : s.kernel.halted = false) (hrun : s.waiting = false)
    (hnumber : called s.cpu.cpsr number = 3)
    (henabled : (callEntry s.called 3 a).Enabled s.kernel)
    (hstep : s.step virtualToPhysical site (.svc number word a x) = some t) :
    EntryStep virtualToPhysical s.kernel (callEntry s.called 3 a) t.kernel ∧
      Sound t ∧ s.virtual.Step (.svc number word a x) t.virtual := by
  obtain ⟨k₁, k, result, hk₁, hk, rfl, hwaits, -⟩ := h.svc_cases hrun (by rw [hnumber]; decide) hstep
  rw [hnumber] at hk
  obtain ⟨k', hk', hmade⟩ := Option.map_eq_some_iff.mp hk
  obtain ⟨rfl, rfl⟩ := Prod.mk.inj hmade
  have hperform : performAction virtualToPhysical s.kernel
      (.event (.wait s.called (s.called.r 0) (s.called.r 1) a.block a.memory)) = some t.kernel := by
    simp only [performAction, perform, hk₁, Option.bind_eq_bind, Option.bind_some]
    exact hk'
  have hfork : ForkStep virtualToPhysical s.kernel
      (.event (.wait s.called (s.called.r 0) (s.called.r 1) a.block a.memory)) t.kernel :=
    ⟨hhalted, henabled, hperform⟩
  have hv := step_valid h.valid hfork
  have hu := moves_inUse h.valid (step_moves h.valid hfork) h.inUse
  have hstores := h.stores hrun hk₁
  obtain ⟨hsaved, hrb⟩ := syscallWait_saved hk'
  obtain ⟨⟨hcurrent, hblock, -⟩, -⟩ := henabled
  have hcur : s.kernel.registerBlock = s.kernel.currentProcess := h.inUse.registerBlock hcurrent
  rw [hstores.current, ← hcur, congrFun hstores.saved, Function.update_self, Option.map_some]
    at hsaved
  have hcontext : context ⟨s.called, a.block⟩ = { Context.behind
      ⟨s.cpu.user, s.cpu.cpsr, s.pc, false⟩ with waits := true } := by
    simp only [context, Context.behind, System.called, System.registers, Psr.ofWord_word,
      sub_wrap (Word.wrap_lt _), decide_eq_true hblock]
  have hcontexts := hstores.contexts_update hsaved
  rw [Option.map_some, hcontext] at hcontexts
  refine ⟨hfork, .idle hv hu (hwaits rfl) hrb (unprivileged_update (hstores.unprivileged h hrun)
    hsaved fun saved hsaved => ?_), ?_⟩
  · obtain rfl := Option.some.inj hsaved
    exact h.called_unprivileged hrun
  · rw [virtual_waiting hv hrb, hcontexts]
    exact .wait (h.virtual_running (h.busy.mp hrun)) hnumber

/-- The caller goes on, and the other processes have what is stored. -/
theorem Sound.goesOn {value : Nat} {x : Returned} (h : Sound s)
    (hrun : s.waiting = false) (hv : Valid t.kernel.view) (hu : InUse t.kernel.view)
    (hrb : t.kernel.registerBlock = s.kernel.registerBlock)
    (hsaved : t.kernel.saved s.kernel.registerBlock = some ⟨s.called, 0⟩)
    (hunprivileged : ∀ p saved, t.kernel.saved p = some saved → Unprivileged saved.registers)
    (hwaiting : t.waiting = false)
    (hanswered : (⟨t.cpu.user, t.cpu.cpsr, t.pc, false⟩ : Context) = Context.answered
      ⟨s.cpu.user, s.cpu.cpsr, s.pc, false⟩ { x with r0 := value }) :
    Sound t ∧ t.virtual = Virtual.put ⟨contexts t.kernel, s.kernel.registerBlock⟩
      s.kernel.registerBlock (some (Context.answered
        ⟨s.cpu.user, s.cpu.cpsr, s.pc, false⟩ { x with r0 := value })) := by
  have h0 := h.busy.mp hrun
  have hpsr : t.cpu.cpsr = s.cpu.cpsr := congrArg Context.psr hanswered
  have hpc : t.pc = s.cpu.cpsr.align (wrap (s.pc + length s.cpu.cpsr)) :=
    congrArg Context.pc hanswered
  refine ⟨⟨hv, hu, ?_, fun _ => ?_, hunprivileged⟩, ?_⟩
  · rw [hwaiting, hrb]
    exact ⟨fun hfalse => absurd hfalse Bool.false_ne_true, fun hzero => absurd hzero h0⟩
  · rw [hpsr, hpc]
    exact ⟨(h.running hrun).1, Nat.lt_of_le_of_lt (align_le ..) (Word.wrap_lt _),
      align_align ..⟩
  · rw [virtual_put (by rw [hrb]; exact hsaved) rfl, hanswered, hrb]

theorem childRegisters_unprivileged {proc : Process} {linked : Bool}
    (h : Unprivileged proc.registers) : Unprivileged (childRegisters proc linked) := by
  cases linked <;> exact h

theorem callEntry_other {registers : Registers} {number : Nat} {a : Allocation}
    (h : number ∉ [1, 2, 3]) : callEntry registers number a = .store registers := by
  match number with
  | 0 => rfl
  | 1 | 2 | 3 => simp at h
  | number + 4 => rfl

/-- The caller goes on with a result. -/
theorem Sound.fork {number word : Nat} {a : Allocation} {x : Returned} (h : Sound s)
    (hhalted : s.kernel.halted = false) (hrun : s.waiting = false)
    (hnumber : called s.cpu.cpsr number = 2) (hchild : Unprivileged a.proc.registers)
    (henabled : (callEntry s.called 2 a).Enabled s.kernel)
    (hstep : s.step virtualToPhysical site (.svc number word a x) = some t) :
    EntryStep virtualToPhysical s.kernel (callEntry s.called 2 a) t.kernel ∧
      Sound t ∧ s.virtual.Step (.svc number word a x) t.virtual := by
  obtain ⟨k₁, k, result, hk₁, hk, rfl, -, hresult⟩ :=
    h.svc_cases hrun (by rw [hnumber]; decide) hstep
  rw [hnumber] at hk
  obtain ⟨⟨k', value⟩, hk', hmade⟩ := Option.map_eq_some_iff.mp hk
  obtain ⟨rfl, rfl⟩ := Prod.mk.inj hmade
  have hperform : performAction virtualToPhysical s.kernel
      (.fork s.called a.child a.proc a.linked a.usable a.table) = some t.kernel := by
    simp only [performAction, hk₁, hk', Option.bind_eq_bind, Option.bind_some]
  have hfork : ForkStep virtualToPhysical s.kernel
      (.fork s.called a.child a.proc a.linked a.usable a.table) t.kernel :=
    ⟨hhalted, henabled, hperform⟩
  have hv := step_valid h.valid hfork
  have hu := moves_inUse h.valid (step_moves h.valid hfork) h.inUse
  have hrb : t.kernel.registerBlock = s.kernel.registerBlock :=
    moves_fork (step_moves h.valid hfork)
  have hstores := h.stores hrun hk₁
  obtain ⟨-, hchild0, hfree, hmade, -⟩ := henabled
  have hne : a.child ≠ s.kernel.registerBlock := by
    intro he
    have h0 : s.kernel.registerBlock ≠ 0 := he ▸ hchild0
    have hnone : s.kernel.process s.kernel.registerBlock = none := he ▸ hfree
    exact h.valid.registerBlock h0 (bareOf_none.mpr hnone)
  have hfree₁ : k₁.process a.child = none := by
    have hnone : k₁.saved a.child = none := by
      rw [hstores.saved, Function.update_of_ne hne, saved_none hfree]
    exact Option.map_eq_none_iff.mp hnone
  have hsaved := syscallFork_saved hfree₁ hk'
  have hself : t.kernel.saved s.kernel.registerBlock = some ⟨s.called, 0⟩ := by
    rw [hsaved]
    split_ifs
    · rw [Function.update_of_ne hne.symm, hstores.saved, Function.update_self]
    · rw [hstores.saved, Function.update_self]
  obtain ⟨hwaiting, hanswered⟩ := hresult value rfl
  have hunprivileged : ∀ p saved, t.kernel.saved p = some saved → Unprivileged saved.registers := by
    cases husable : a.usable with
    | true =>
      rw [husable, if_pos rfl] at hsaved
      refine unprivileged_update (hstores.unprivileged h hrun) hsaved fun saved hsaved => ?_
      obtain rfl := Option.some.inj hsaved
      exact childRegisters_unprivileged hchild
    | false =>
      rw [husable, if_neg Bool.false_ne_true] at hsaved
      rw [hsaved]
      exact hstores.unprivileged h hrun
  obtain ⟨hsound, hvirtual⟩ := h.goesOn hrun hv hu hrb hself hunprivileged hwaiting hanswered
  have hput : t.virtual = Virtual.put (if a.usable then
      s.virtual.put a.child (some (context ⟨childRegisters a.proc a.linked, 0⟩)) else s.virtual)
      s.virtual.running (some (Context.answered
        ⟨s.cpu.user, s.cpu.cpsr, s.pc, false⟩ { x with r0 := value })) := by
    rw [hvirtual]
    have hblock : a.proc.block = 0 := hmade.1
    refine Virtual.ext (funext fun p => ?_) (by split_ifs <;> rfl)
    by_cases hp : p = s.kernel.registerBlock
    · rw [hp, put_self]
      split_ifs <;> exact (put_self (p := s.kernel.registerBlock) ..).symm
    · have hcontexts : contexts k₁ p = s.virtual.context p :=
        (congrFun hstores.contexts p).trans
          (put_of_ne (p := s.kernel.registerBlock) hp s.virtual _)
      rw [put_of_ne hp]
      show contexts t.kernel p = _
      rw [contexts, hsaved]
      split_ifs with husable
      · refine Eq.trans ?_ (put_of_ne (p := s.kernel.registerBlock) hp _ _).symm
        by_cases hpc : p = a.child
        · rw [hpc, Function.update_self, put_self, Option.map_some, hblock]
        · rw [Function.update_of_ne hpc, put_of_ne hpc, ← hcontexts, contexts]
      · refine Eq.trans ?_ (put_of_ne (p := s.kernel.registerBlock) hp _ _).symm
        exact hcontexts
  rw [hput]
  exact ⟨hfork, hsound, .fork (h.virtual_running (h.busy.mp hrun)) hnumber
    (by simp [System.virtual, saved_none hfree])⟩

theorem Sound.other {number word : Nat} {a : Allocation} {x : Returned} (h : Sound s)
    (hhalted : s.kernel.halted = false) (hrun : s.waiting = false)
    (hbyte : called s.cpu.cpsr number < 256) (hnumber : called s.cpu.cpsr number ∉ [1, 2, 3])
    (hstep : s.step virtualToPhysical site (.svc number word a x) = some t) :
    EntryStep virtualToPhysical s.kernel (.store s.called) t.kernel ∧
      Sound t ∧ s.virtual.Step (.svc number word a x) t.virtual := by
  obtain ⟨k₁, k, result, hk₁, hk, rfl, -, hresult⟩ := h.svc_cases hrun hbyte hstep
  have hhandled : handledCall virtualToPhysical k₁ s.cpu.user (called s.cpu.cpsr number) a =
      some (k₁, some 0) := handledCall_other hnumber
  obtain ⟨rfl, rfl⟩ := Prod.mk.inj (Option.some.inj (hhandled.symm.trans hk))
  obtain ⟨t', ht', hview, hrest⟩ := h.valid.storeContext s.called
  obtain rfl := Option.some.inj (hk₁.symm.trans ht')
  have hstores := h.stores hrun hk₁
  obtain ⟨hwaiting, hanswered⟩ := hresult 0 rfl
  obtain ⟨hsound, hvirtual⟩ := h.goesOn hrun (hview ▸ h.valid) (hview ▸ h.inUse)
    hstores.registerBlock (by rw [hstores.saved, Function.update_self])
    (hstores.unprivileged h hrun) hwaiting hanswered
  refine ⟨⟨hhalted, trivial, hk₁⟩, hsound, ?_⟩
  have hput : t.virtual = s.virtual.put s.virtual.running (some (Context.answered
      ⟨s.cpu.user, s.cpu.cpsr, s.pc, false⟩ { x with r0 := 0 })) := by
    rw [hvirtual, hstores.contexts]
    exact congrArg (fun context => (⟨context, _⟩ : Virtual)) (Function.update_idem ..)
  rw [hput]
  exact .other (h.virtual_running (h.busy.mp hrun)) hnumber

/-! ## Runs -/

/-- A step of the system is an entry into the scheduler, or none, and a step of the processors. -/
theorem Sound.step {h : Happening} (hs : Sound s) (hgenuine : Genuine s h)
    (hstep : SystemStep virtualToPhysical site s h t) :
    ((∀ e ∈ s.entry h, EntryStep virtualToPhysical s.kernel e t.kernel) ∧
      (s.entry h = none → t.kernel = s.kernel)) ∧ Sound t ∧ s.virtual.Step h t.virtual := by
  obtain ⟨hhalted, henabled, hentry, hstep⟩ := hstep
  cases h with
  | execute user psr pc =>
    obtain ⟨hkernel, hsound⟩ := hs.execute henabled hstep
    exact ⟨⟨nofun, fun _ => hkernel⟩, hsound⟩
  | create p proc =>
    obtain ⟨hkernel, hsound⟩ := hs.create hhalted henabled (hentry _ rfl) hstep
    refine ⟨⟨fun e he => ?_, nofun⟩, hsound⟩
    obtain rfl := Option.some.inj he
    exact hkernel
  | irq sirIrq x =>
    by_cases hsir : sirIrq &&& 0xff = timerIrq
    · obtain ⟨hkernel, hsound⟩ := hs.irq_timer hsir hhalted hstep
      have hsome : s.entry (.irq sirIrq x) =
          some (.action (.event (.interrupt (s.registers (wrap (s.pc + 4)))))) := if_pos hsir
      rw [hsome]
      refine ⟨⟨fun e he => ?_, nofun⟩, hsound⟩
      obtain rfl := Option.some.inj he
      exact hkernel
    · obtain ⟨hkernel, hsound⟩ :=
        hs.irq_other hsir (fun hnumber => hsir (hgenuine hnumber)) hhalted hstep
      have hnone : s.entry (.irq sirIrq x) = none := if_neg hsir
      rw [hnone]
      exact ⟨⟨nofun, fun _ => hkernel⟩, hsound⟩
  | svc number word a x =>
    obtain ⟨hrun, hbyte, hchild⟩ := henabled
    have hcall : (callEntry s.called (called s.cpu.cpsr number) a).Enabled s.kernel := hentry _ rfl
    have hsome : s.entry (.svc number word a x) =
        some (callEntry s.called (called s.cpu.cpsr number) a) := rfl
    have hentered : EntryStep virtualToPhysical s.kernel
        (callEntry s.called (called s.cpu.cpsr number) a) t.kernel ∧
          Sound t ∧ s.virtual.Step (.svc number word a x) t.virtual := by
      by_cases hnumber : called s.cpu.cpsr number ∈ [1, 2, 3]
      · simp only [List.mem_cons, List.not_mem_nil, or_false] at hnumber
        obtain hexit | hfork | hwait := hnumber
        · rw [hexit] at hcall ⊢
          exact hs.exit hhalted hrun hexit hcall hstep
        · rw [hfork] at hcall ⊢
          exact hs.fork hhalted hrun hfork hchild hcall hstep
        · rw [hwait] at hcall ⊢
          exact hs.wait hhalted hrun hwait hcall hstep
      · rw [callEntry_other hnumber]
        exact hs.other hhalted hrun hbyte hnumber hstep
    rw [hsome]
    refine ⟨⟨fun e he => ?_, nofun⟩, hentered.2⟩
    obtain rfl := Option.some.inj he
    exact hentered.1
  | prefetchAbort x =>
    obtain ⟨hkernel, hsound, hvirtual⟩ := @Sound.abort s t 0 x hs henabled hstep
    obtain ⟨-, hpc, halign⟩ := hs.running henabled
    have hrunning := hs.virtual_running (hs.busy.mp henabled)
    rw [Nat.add_zero, Word.wrap_of_lt hpc, halign, put_same hrunning] at hvirtual
    refine ⟨⟨nofun, fun _ => hkernel⟩, hsound, ?_⟩
    rw [hvirtual]
    exact .prefetchAbort
  | dataAbort x =>
    obtain ⟨hkernel, hsound, hvirtual⟩ := @Sound.abort s t 4 x hs henabled hstep
    refine ⟨⟨nofun, fun _ => hkernel⟩, hsound, ?_⟩
    rw [hvirtual]
    exact .dataAbort (hs.virtual_running (hs.busy.mp henabled))
  | undef =>
    obtain ⟨hkernel, hsound⟩ := hs.undef henabled hstep
    exact ⟨⟨nofun, fun _ => hkernel⟩, hsound⟩

end WagtailPreemption
