import Wagtail.Preemption
import Wagtail.SchedulerQueue

/-!
# Preemption over whole runs

Every run of the processor and the kernel is one of the scheduler, for the contexts
that have been interrupted, and one of the processes with a processor each. What a
process finds when it runs again is what it has left.
-/
namespace WagtailPreemption

open Arm
open Word (wrap sub)
open WagtailInterrupts
open WagtailScheduler
open Runs (Run Guarded)

variable {virtualToPhysical : Nat → Nat} {site : Site → Nat} {s t u : System} {v w : Virtual}
  {p : Nat} {k : Kernel} {h : Happening} {hs : List Happening}

/-! ## The invariant -/

/-- The happenings that are genuine. -/
abbrev GenuineStep (virtualToPhysical : Nat → Nat) (site : Site → Nat) :
    System → Happening → System → Prop :=
  Guarded Genuine (SystemStep virtualToPhysical site)

/-- The steps from states in which another process runs, or none. -/
abbrev AwayStep (virtualToPhysical : Nat → Nat) (site : Site → Nat) (p : Nat) :
    System → Happening → System → Prop :=
  Guarded (fun s _ => s.kernel.registerBlock ≠ p) (GenuineStep virtualToPhysical site)

theorem run_sound (hsound : Sound s) (hrun : Run (GenuineStep virtualToPhysical site) s hs t) :
    Sound t :=
  hrun.invariant hsound fun _ _ _ hsound hstep => (hsound.step hstep.1 hstep.2).2.1

/-! ## Two threads -/

instance (s : System) (h : Happening) : Decidable (h.Enabled s) :=
  match h with
  | .execute _ _ _ => inferInstanceAs (Decidable (_ ∧ _ ∧ _ ∧ _))
  | .create _ proc => inferInstanceAs (Decidable (bank (Psr.ofWord proc.registers.spsr).mode = usr))
  | .irq _ _ => inferInstanceAs (Decidable True)
  | .svc _ _ a _ => inferInstanceAs (Decidable (_ ∧ _ ∧
      bank (Psr.ofWord a.proc.registers.spsr).mode = usr))
  | .prefetchAbort _ | .dataAbort _ | .undef => inferInstanceAs (Decidable (s.waiting = false))

instance (s : System) (h : Happening) : Decidable (Genuine s h) :=
  match h with
  | .irq _ _ => inferInstanceAs (Decidable (_ → _))
  | .execute _ _ _ | .create _ _ | .svc _ _ _ _ | .prefetchAbort _ | .dataAbort _ | .undef =>
    inferInstanceAs (Decidable True)

/-- The entries that are enabled, for a program to check. -/
def Entry.enabled (k : Kernel) : Entry → Bool
  | .action a => a.enabled k
  | .store _ => true

theorem Entry.enabled_sound {e : Entry} (h : e.enabled k = true) : e.Enabled k := by
  cases e with
  | action a => exact Action.enabled_sound h
  | store registers => trivial

/-- Any addresses will do. -/
def sites : Site → Nat
  | .switchStore => 0x81000404
  | .switchRestore => 0x81000414
  | .svcStore => 0x81000484

def systemStep (s : System) (h : Happening) : Option System :=
  if s.kernel.halted = false ∧ h.Enabled s ∧ (s.entry h).all (·.enabled s.kernel) = true then
    s.step id sites h
  else none

theorem systemStep_step (h' : systemStep s h = some t) : SystemStep id sites s h t := by
  unfold systemStep at h'
  split_ifs at h' with hcond
  refine ⟨hcond.1, hcond.2.1, fun e he => Entry.enabled_sound ?_, h'⟩
  have hall := hcond.2.2
  rw [Option.mem_def.mp he] at hall
  exact hall

def genuineStep (s : System) (h : Happening) : Option System :=
  if Genuine s h then systemStep s h else none

theorem genuineStep_step (h' : genuineStep s h = some t) : GenuineStep id sites s h t := by
  unfold genuineStep at h'
  split_ifs at h' with hcond
  exact ⟨hcond, systemStep_step h'⟩

def awayStep (p : Nat) (s : System) (h : Happening) : Option System :=
  if s.kernel.registerBlock ≠ p then genuineStep s h else none

theorem awayStep_step (h' : awayStep p s h = some t) : AwayStep id sites p s h t := by
  unfold awayStep at h'
  split_ifs at h' with hcond
  exact ⟨hcond, genuineStep_step h'⟩

def bootCpu : Cpu :=
  ⟨fun _ => 0, 0, fun _ => 0, fun _ => Psr.ofWord 0x1d3, fun _ => [], Psr.ofWord 0x1d3⟩

/-- What a handler may leave in the registers. -/
def clobbered : Returned := ⟨1, 2, 3, 4, 5, 6, true, false, true, false⟩

def tick : Happening := .irq 37 clobbered

/-- Two threads, of which the first has run for a while. -/
def started : List Happening :=
  [.create 0x1000 (newThread 1), .create 0x2000 (newThread 2), tick,
    .execute (fun i => i.val + 7) (Psr.ofWord 0x6000003f) 0x81000100]

def running : System := (started.foldlM genuineStep (initial bootMmu bootCpu)).get
  (by decide +kernel)

theorem running_run : Run (GenuineStep id sites) (initial bootMmu bootCpu) started running :=
  Run.of_foldlM (fun _ _ _ => genuineStep_step) (Option.some_get _).symm

/-! ## The scheduler -/

/-- The system, and what has entered the scheduler. -/
structure Observed where
  system : System
  entries : List Entry

def ObservedStep (virtualToPhysical : Nat → Nat) (site : Site → Nat) (s : Observed) (h : Happening)
    (t : Observed) : Prop :=
  GenuineStep virtualToPhysical site s.system h t.system ∧
    t.entries = s.entries ++ (s.system.entry h).toList

/-- Every run can be observed. -/
theorem observe {entries : List Entry} (hrun : Run (GenuineStep virtualToPhysical site) s hs t) :
    ∃ entries', Run (ObservedStep virtualToPhysical site) ⟨s, entries⟩ hs ⟨t, entries'⟩ := by
  obtain ⟨o, ho, rfl⟩ := hrun.simulate (R := fun s (o : Observed) => o.system = s)
    (rfl : (Observed.mk s entries).system = s) fun s h t o hs hstep => by
      subst hs
      have hobserved : ObservedStep virtualToPhysical site o h
          ⟨t, o.entries ++ (o.system.entry h).toList⟩ := ⟨hstep, rfl⟩
      exact ⟨_, hobserved, rfl⟩
  exact ⟨o.entries, ho⟩

theorem virtual_initial (mmu : WagtailMmu.Mmu) (cpu : Cpu) :
    (initial mmu cpu).virtual = ⟨fun _ => none, 0⟩ :=
  virtual_waiting (valid_initial mmu) rfl

/-- The states in which another process runs, or none. -/
def Away (p : Nat) (v : Virtual) (_ : Happening) : Prop := v.running ≠ p

theorem put_keeps {q : Nat} {c : Context} (h : v.context p = some c) (hp : p ≠ q)
    (c' : Option Context) : (v.put q c').context p = some c := by
  rw [put_of_ne hp, h]

theorem context_ne {q : Nat} {c : Context} (h : v.context p = some c) (hq : v.context q = none) :
    p ≠ q := by
  rintro rfl
  rw [h] at hq
  cases hq

/-- An interrupt changes the context of a process that has waited, and of no other. -/
theorem Virtual.Step.interrupted {sirIrq : Nat} {x : Returned} {c : Context}
    (hstep : v.Step (.irq sirIrq x) w) (hp : v.context p = some c) (hwaits : c.waits = false) :
    w.context p = some c := by
  cases hstep with
  | ignore | switch => exact hp
  | answer _ hnext hanswers =>
    refine put_keeps hp ?_ _
    rintro rfl
    rw [hp] at hnext
    obtain rfl := Option.some.inj hnext
    rw [hwaits] at hanswers
    cases hanswers

/-- What neither runs nor is interrupted keeps its context. -/
theorem Virtual.Step.apart {c : Context} (hstep : v.Step h w)
    (hirq : ∀ sirIrq x, h ≠ .irq sirIrq x) (hp : v.context p = some c)
    (haway : v.running ≠ p) : w.context p = some c := by
  cases hstep with
  | execute | exit | wait | other | dataAbort | undef => exact put_keeps hp haway.symm _
  | create hfree => exact put_keeps hp (context_ne hp hfree) _
  | ignore | switch | answer => exact absurd rfl (hirq _ _)
  | prefetchAbort => exact hp
  | fork _ _ hfree =>
    refine put_keeps ?_ haway.symm _
    split_ifs
    · exact put_keeps hp (context_ne hp hfree) _
    · exact hp

/-- A process other than the one that has run runs after an interrupt only. -/
theorem Virtual.Step.running_of_ne_irq (hstep : v.Step h w) (hirq : ∀ sirIrq x, h ≠ .irq sirIrq x) :
    w.running = v.running ∨ w.running = 0 := by
  cases hstep with
  | ignore | switch | answer => exact absurd rfl (hirq _ _)
  | exit | wait => exact .inr rfl
  | fork =>
    left
    show (Virtual.put _ _ _).running = v.running
    split_ifs <;> rfl
  | _ => exact .inl rfl

/-- A process that does not wait keeps its context until it runs again. -/
theorem Virtual.Step.keeps {c : Context} (hstep : v.Step h w) (haway : v.running ≠ p)
    (hp : v.context p = some c) (hwaits : c.waits = false) : w.context p = some c := by
  cases h with
  | irq sirIrq x => exact hstep.interrupted hp hwaits
  | _ => exact hstep.apart nofun hp haway

/-- A process that waits, or has the answer and runs. -/
def Waits (p : Nat) (c : Context) (v : Virtual) : Prop :=
  (v.running ≠ p ∧ v.context p = some c) ∨ (v.running = p ∧ ∃ pid, v.context p =
    some { c with user := Function.update c.user WagtailScheduler.r0 pid, waits := false })

theorem Virtual.Step.waits {c : Context} (hstep : v.Step h w) (haway : v.running ≠ p) (h0 : p ≠ 0)
    (hp : v.context p = some c) (hwaits : c.waits = true) : Waits p c w := by
  by_cases hirq : ∃ sirIrq x, h = .irq sirIrq x
  · obtain ⟨sirIrq, x, rfl⟩ := hirq
    cases hstep with
    | ignore => exact .inl ⟨haway, hp⟩
    | @switch _ next _ _ hnext =>
      refine .inl ⟨?_, hp⟩
      rintro rfl
      obtain ⟨c', hc', hawake⟩ := hnext h0
      rw [hp] at hc'
      obtain rfl := Option.some.inj hc'
      rw [hwaits] at hawake
      cases hawake
    | @answer _ next pid _ c' _ hnext _ =>
      by_cases hpn : p = next
      · subst hpn
        rw [hp] at hnext
        obtain rfl := Option.some.inj hnext
        exact .inr ⟨rfl, pid, put_self v p _⟩
      · exact .inl ⟨Ne.symm hpn, put_keeps hp hpn _⟩
  · have hne : ∀ sirIrq x, h ≠ .irq sirIrq x := fun sirIrq x he => hirq ⟨sirIrq, x, he⟩
    refine .inl ⟨?_, hstep.apart hne hp haway⟩
    obtain hrunning | hrunning := hstep.running_of_ne_irq hne
    · rw [hrunning]
      exact haway
    · rw [hrunning]
      exact h0.symm

theorem Virtual.Step.called_wait {number word : Nat} {a : Allocation} {x : Returned} {c : Context}
    (hstep : v.Step (.svc number word a x) w) (hp : v.context v.running = some c)
    (hnumber : called c.psr number = 3) :
    w = { v.put v.running (some { c.behind with waits := true }) with running := 0 } := by
  have hsame : ∀ c', v.context v.running = some c' → c' = c := fun c' hc' =>
    Option.some.inj (hc'.symm.trans hp)
  cases hstep with
  | exit hc hcalled | fork hc hcalled =>
    rw [hsame _ hc, hnumber] at hcalled
    cases hcalled
  | wait hc => rw [hsame _ hc]
  | other hc hcalled =>
    rw [hsame _ hc, hnumber] at hcalled
    exact absurd (by decide) hcalled

theorem away_keeps {c : Context} (hrun : Run (Guarded (Away p) Virtual.Step) v hs w)
    (hp : v.context p = some c) (hwaits : c.waits = false) : w.context p = some c :=
  hrun.invariant hp fun _ _ _ hp hstep => hstep.2.keeps hstep.1 hp hwaits

theorem away_waits {c : Context} (hrun : Run (Guarded (Away p) Virtual.Step) v hs w) (h0 : p ≠ 0)
    (haway : v.running ≠ p) (hp : v.context p = some c) (hwaits : c.waits = true) :
    Waits p c w := by
  refine hrun.invariant (.inl ⟨haway, hp⟩) fun v h w hv hstep => ?_
  obtain ⟨haway, hp⟩ | ⟨hback, -⟩ := hv
  · exact hstep.2.waits haway h0 hp hwaits
  · exact absurd hback hstep.1

/-! ## A process that is away -/

theorem away_virtual (hsound : Sound s) (hrun : Run (AwayStep virtualToPhysical site p) s hs t) :
    Sound t ∧ Run (Guarded (Away p) Virtual.Step) s.virtual hs t.virtual := by
  obtain ⟨v, hv, ht, rfl⟩ := hrun.simulate (R := fun s v => Sound s ∧ s.virtual = v)
    ⟨hsound, rfl⟩ fun s h t v ⟨hsound, hv⟩ hstep => by
      subst hv
      obtain ⟨-, hsound', hvirtual⟩ := hsound.step hstep.2.1 hstep.2.2
      have haway : Guarded (Away p) Virtual.Step s.virtual h t.virtual := ⟨hstep.1, hvirtual⟩
      exact ⟨t.virtual, haway, hsound', rfl⟩
  exact ⟨ht, hv⟩

theorem Sound.back {c : Context} (hsound : Sound t) (hp : t.virtual.context p = some c)
    (h0 : p ≠ 0) (hback : t.kernel.registerBlock = p) :
    t.waiting = false ∧ c = ⟨t.cpu.user, t.cpu.cpsr, t.pc, false⟩ := by
  subst hback
  refine ⟨hsound.busy.mpr h0, ?_⟩
  exact Option.some.inj (hp.symm.trans (hsound.virtual_running h0))

/-- The second thread runs in between. -/
def stopped : System := (genuineStep running tick).get (by decide +kernel)

def resumed : System := ([.execute (fun _ => 5) (Psr.ofWord 0x3f) 0x81000200, tick].foldlM
  (awayStep 0x1000) stopped).get (by decide +kernel)

def callWait : Happening :=
  .svc 3 0xdf03 ⟨0x3000, ⟨0, 0, 0, 0, 0, false⟩, 0, newThread 0, false, false, 0⟩ clobbered

def callExit : Happening :=
  .svc 1 0xdf01 ⟨0, ⟨0, 0, 0, 0, 0, false⟩, 0, newThread 0, false, false, 0⟩ clobbered

/-- The first thread asks for the second. -/
def asking : List Happening := started ++
  [.execute (fun i => if i = WagtailScheduler.r0 then 2 else 0) (Psr.ofWord 0x3f) 0x81000100]

def waiter : System := (asking.foldlM genuineStep (initial bootMmu bootCpu)).get (by decide +kernel)

def blocked : System := (genuineStep waiter callWait).get (by decide +kernel)

def answeredEnd : System := ([tick, callExit, tick].foldlM (awayStep 0x1000) blocked).get
  (by decide +kernel)

/-- An interrupt of the timer that is marked as spurious reaches the scheduler, and nothing of the
choice reaches the processor. -/
theorem Sound.spurious {sirIrq : Nat} {x : Returned} (hs : Sound s)
    (hsir : sirIrq &&& 0xff ≠ timerIrq) (hnumber : sirIrq &&& 0x7f = timerIrq)
    (hstep : SystemStep virtualToPhysical site s (.irq sirIrq x) t) :
    Chooses s.kernel t.kernel ∧ (t.kernel.registerBlock ≠ 0 → s.waiting = false →
      t.cpu.user = s.cpu.user ∧ t.cpu.cpsr = s.cpu.cpsr ∧ t.pc = s.pc) := by
  obtain ⟨hhalted, -, -, hstep⟩ := hstep
  obtain ⟨o, ho, rfl⟩ := Option.map_eq_some_iff.mp hstep
  obtain ⟨k, hk, hmoves, -⟩ :=
    @interrupt_moves virtualToPhysical s.kernel hs.valid (s.registers 0)
  have hhandled : handledKernel virtualToPhysical (s.take irq (s.pc + 4)).kernel sirIrq =
      some k := by
    rw [handledKernel, if_pos hnumber]
    exact hk
  have hchooses := interrupt_chooses hs.valid hk
  cases hkernel : k.halted with
  | true =>
    obtain ⟨cpu, hirq⟩ := @intIrq_halts _ virtualToPhysical site _ x k hsir hhandled hkernel
    obtain rfl := Option.some.inj (hirq.symm.trans ho)
    exact ⟨hchooses, fun h0 => absurd (moves_halted hs.valid hmoves hhalted hkernel) h0⟩
  | false =>
    rw [intIrq_returns hsir rfl hhandled hkernel] at ho
    obtain rfl := Option.some.inj ho
    refine ⟨hchooses, fun _ hrun => ⟨@take_user s irq (by decide) (s.pc + 4),
      take_spsr irq (s.pc + 4), ?_⟩⟩
    obtain ⟨-, hpc, halign⟩ := hs.running hrun
    have hlr : (s.take irq (s.pc + 4)).cpu.get .lr = wrap (s.pc + 4) := take_lr rfl _
    have hspsr : (s.take irq (s.pc + 4)).cpu.spsr irq = s.cpu.cpsr := take_spsr irq _
    show ((s.take irq (s.pc + 4)).cpu.spsr irq).align
      (sub ((s.take irq (s.pc + 4)).cpu.get .lr) 4) = s.pc
    rw [hspsr, hlr, sub_wrap hpc, halign]

theorem chooses_same {k k' : Kernel} (hchooses : Chooses k k')
    (hrunning : ∀ saved, k.saved k.registerBlock = some saved → saved.block = 0)
    (hsame : k'.registerBlock = k.registerBlock) : k'.saved = k.saved := by
  cases hchooses with
  | keeps hsaved | runs hsaved => exact hsaved
  | answers hold hblock =>
    rw [hsame] at hold
    exact absurd (hrunning _ hold) hblock

theorem Sound.running_awake (hs : Sound s) {saved : Saved}
    (h : s.kernel.saved s.kernel.registerBlock = some saved) : saved.block = 0 := by
  have h0 : s.kernel.registerBlock ≠ 0 := by
    intro h0
    rw [h0, saved_none (bareOf_none.mp hs.valid.kin.null)] at h
    cases h
  obtain ⟨proc, hproc, hblock⟩ := hs.exists_running h0
  rw [saved_some hproc] at h
  obtain rfl := Option.some.inj h
  exact hblock

end WagtailPreemption
