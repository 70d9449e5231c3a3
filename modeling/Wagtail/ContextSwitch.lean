import Wagtail.Interrupts

/-!
# What the handlers do

The code in assembly against the scheduler's view of it.
-/
namespace WagtailInterrupts

open Arm
open Word (wrap sub)
open WagtailScheduler (Kernel Process Registers Waitblock Event Action modifyProcess_eq)

variable {m : Machine}

/-! ## Storing -/

/-- The registers that `store_context` stores, with the address that its caller has pushed. -/
def stored (m : Machine) (link : Nat) : Registers where
  r := m.cpu.user
  spsr := m.cpu.mrsSpsr
  returnAddress := if m.cpu.mode = svc then wrap (link + 4) else link

/-- The kernel with other registers of a process. -/
def putRegisters (k : Kernel) (p : Nat) (proc : Process) (registers : Registers) : Kernel :=
  { k with process := Function.update k.process p (some { proc with registers }) }

theorem putRegisters_process (k : Kernel) (p : Nat) (proc : Process) (registers : Registers) :
    (putRegisters k p proc registers).process p = some { proc with registers } :=
  Function.update_self ..

theorem putRegisters_idem (k : Kernel) (p : Nat) (proc : Process) (first second : Registers) :
    putRegisters (putRegisters k p proc first) p { proc with registers := first } second =
      putRegisters k p proc second := by
  simp only [putRegisters, Function.update_idem]

theorem stmiaUser_eq {base : Reg} {p : Nat} {proc : Process} (hbase : m.cpu.get base = p)
    (hproc : m.kernel.process p = some proc) :
    m.stmiaUser base = some { m with
      kernel := putRegisters m.kernel p proc { proc.registers with r := m.cpu.user } } := by
  rw [Machine.stmiaUser, hbase, modifyProcess_eq hproc]
  rfl

theorem str_eq {rt base : Reg} {p : Nat} {proc : Process} (i : Nat) (hbase : m.cpu.get base = p)
    (hproc : m.kernel.process p = some proc) :
    m.str rt base i = some { m with
      kernel := putRegisters m.kernel p proc (setWord proc.registers i (m.cpu.get rt)) } := by
  rw [Machine.str, hbase, modifyProcess_eq hproc]
  rfl

/-- After a comparison with the mode that `mrs` has read. -/
theorem cmp_mode (c : Cpu) (mode : BitVec 5) :
    ((c.set r0 (c.mrsCpsr % 2 ^ 6)).cmp r0 mode.toNat).cpsr.zero = decide (c.cpsr.mode = mode) := by
  rw [cmp_zero, get_set, mrsCpsr_mode]
  by_cases h : c.cpsr.mode = mode
  · simp [h]
  · rw [decide_eq_false h, beq_eq_false_iff_ne]
    exact fun he => h (BitVec.eq_of_toNat_eq he)

theorem storeRegisters_eq {link : Nat} {rest : List Nat} {proc : Process} {a b : Nat}
    (hproc : m.kernel.process (m.cpu.get .lr) = some proc)
    (hstack : m.cpu.stack m.cpu.mode = a :: b :: link :: rest) :
    ∃ cpsr : Psr, cpsr.mode = m.cpu.mode ∧ storeRegisters m =
      some (b, ⟨{ (m.cpu.set r0 a).setStack m.cpu.mode (link :: rest) with cpsr },
        putRegisters m.kernel (m.cpu.get .lr) proc (stored m link)⟩) := by
  have huser := stmiaUser_eq (m := m) rfl hproc
  set m₁ : Machine := ⟨m.cpu, putRegisters m.kernel (m.cpu.get .lr) proc
    { proc.registers with r := m.cpu.user }⟩ with hm₁
  have hspsr : (m₁.exec fun c => c.set r0 c.mrsSpsr).str r0 .lr spsrOffset =
      some ⟨m.cpu.set r0 m.cpu.mrsSpsr, putRegisters m.kernel (m.cpu.get .lr) proc
        ⟨m.cpu.user, m.cpu.mrsSpsr, proc.registers.returnAddress⟩⟩ := by
    rw [@str_eq (m₁.exec fun c => c.set r0 c.mrsSpsr) r0 .lr (m.cpu.get .lr) _ spsrOffset
      rfl (putRegisters_process ..), hm₁, Machine.exec, putRegisters_idem, get_set]
    rfl
  set m₂ : Machine := ⟨m.cpu.set r0 m.cpu.mrsSpsr, _⟩ with hm₂
  simp only [storeRegisters, huser, hspsr, Option.bind_eq_bind, Option.bind_some]
  set m₃ : Machine := ((m₂.exec fun c => c.set r0 c.mrsCpsr).exec fun c =>
    c.set r0 (c.get r0 % 2 ^ 6)).exec (·.cmp r0 svc.toNat) with hm₃
  have hzero : m₃.cpu.cpsr.zero = decide (m.cpu.mode = svc) := by
    have hget : (m₂.exec fun c => c.set r0 c.mrsCpsr).cpu.get r0 = m.cpu.mrsCpsr :=
      get_set m₂.cpu r0 _
    have hcpu : m₃.cpu = ((m₂.exec fun c => c.set r0 c.mrsCpsr).cpu.set r0
        (m.cpu.mrsCpsr % 2 ^ 6)).cmp r0 svc.toNat := by
      rw [← hget]
      rfl
    rw [hcpu]
    exact cmp_mode (m₂.exec fun c => c.set r0 c.mrsCpsr).cpu svc
  have hlink : (m₃.cpu.stack m₃.cpu.mode)[2]? = some link := by
    show (m.cpu.stack m.cpu.mode)[2]? = some link
    rw [hstack]
    rfl
  obtain ⟨m₄, hm₄, hcpu, hkernel⟩ : ∃ m₄ : Machine,
      (if (m₃.exec (·.set r0 link)).cpu.cpsr.zero = true then
        (m₃.exec (·.set r0 link)).exec fun c => c.set r0 (wrap (c.get r0 + 4))
      else m₃.exec (·.set r0 link)) = m₄ ∧
      m₄.cpu = { m.cpu.set r0 (stored m link).returnAddress with cpsr := m₃.cpu.cpsr } ∧
      m₄.kernel = m₂.kernel := by
    refine ⟨_, rfl, ?_, ?_⟩
    · have hkeep : (m₃.exec (·.set r0 link)).cpu.cpsr.zero = decide (m.cpu.mode = svc) := hzero
      have hset : ∀ value, m₃.cpu.set r0 value =
          { m.cpu.set r0 value with cpsr := m₃.cpu.cpsr } := by
        intro value
        simp [hm₃, hm₂, Machine.exec, Cpu.set, Cpu.cmp]
      by_cases hsvc : m.cpu.mode = svc
      · have hget : (m₃.exec (·.set r0 link)).cpu.get r0 = link :=
          get_set m₃.cpu r0 link
        have hset₂ : (m₃.cpu.set r0 link).set r0 (wrap (link + 4)) =
          m₃.cpu.set r0 (wrap (link + 4)) := by
          simp [Cpu.set]
        rw [hkeep, if_pos (by simpa using hsvc), stored, if_pos hsvc, ← hset, ← hset₂, ← hget]
        rfl
      · rw [hkeep, if_neg (by simpa using hsvc), stored, if_neg hsvc, ← hset]
        rfl
    · split <;> rfl
  have hstr := @str_eq m₄ r0 .lr (m.cpu.get .lr) _ returnAddressOffset (by rw [hcpu]; rfl)
    (by rw [hkernel]; exact putRegisters_process ..)
  have hpop := @popPc_eq m₄.cpu [(r0, a)] b (link :: rest) (by
    rw [hcpu]
    exact hstack)
  simp only [List.map_cons, List.map_nil] at hpop
  simp only [hlink, Option.bind_some, hm₄, hstr, hpop]
  refine ⟨m₃.cpu.cpsr, rfl, ?_⟩
  have hregisters : m₄.cpu.get r0 = (stored m link).returnAddress := by
    rw [hcpu]
    exact get_set m.cpu r0 _
  have hcpu' : (m₄.cpu.load [(r0, a)]).setStack m₄.cpu.mode (link :: rest) =
      { (m.cpu.set r0 a).setStack m.cpu.mode (link :: rest) with cpsr := m₃.cpu.cpsr } := by
    rw [hcpu]
    simp only [Cpu.load, Cpu.set, Cpu.setStack, Function.update_idem]
    rfl
  rw [hregisters, hkernel, hm₂, putRegisters_idem, hcpu']
  rfl

/-- The register block is in the link register, and the zero flag says whether it is null. -/
theorem registerBlock_get (m : Machine) :
    (m.ldrRegisterBlock.exec (·.cmp .lr 0)).cpu.get .lr = m.kernel.registerBlock := by
  rw [Machine.exec, cmp_get]
  exact get_set m.cpu .lr _

theorem registerBlock_zero (m : Machine) :
    (m.ldrRegisterBlock.exec (·.cmp .lr 0)).cpu.cpsr.zero = decide (m.kernel.registerBlock = 0) := by
  rw [← registerBlock_get m]
  rfl

/-- What `store_context` does on the processor is to use the link register and the flags. -/
theorem storeContext_eq {link : Nat} {rest : List Nat}
    (hstack : m.cpu.stack m.cpu.mode = link :: rest) (hbank : bank m.cpu.mode ≠ usr) :
    ∃ cpu, m.cpu.Keeps cpu ∧ storeContext m =
      (WagtailScheduler.storeContext m.kernel (stored m link)).map fun kernel =>
        (m.cpu.get .lr, ⟨cpu, kernel⟩) := by
  set head : Machine := ((m.exec (·.push [r0, .lr])).ldrRegisterBlock).exec (·.cmp .lr 0) with hhead
  have hget : head.cpu.get .lr = m.kernel.registerBlock := registerBlock_get _
  have hhstack : head.cpu.stack head.cpu.mode = m.cpu.get r0 :: m.cpu.get .lr :: link :: rest := by
    rw [← hstack]
    exact setStack_stack ..
  have hzero : head.cpu.cpsr.zero = decide (m.kernel.registerBlock = 0) := registerBlock_zero _
  have hkeeps : ∀ cpsr : Psr, cpsr.mode = m.cpu.mode →
      m.cpu.Keeps { (head.cpu.set r0 (m.cpu.get r0)).setStack head.cpu.mode (link :: rest) with
        cpsr } := by
    intro cpsr hmode
    refine ⟨Function.update_eq_self 0 m.cpu.r, rfl, fun mode h => Function.update_of_ne h .., rfl,
      ?_, hmode⟩
    rw [← hstack]
    exact (Function.update_idem ..).trans (Function.update_eq_self ..)
  by_cases h0 : m.kernel.registerBlock = 0
  · have hpop := @popPc_eq head.cpu [(r0, m.cpu.get r0)] (m.cpu.get .lr) (link :: rest) hhstack
    simp only [List.map_cons, List.map_nil] at hpop
    rw [WagtailScheduler.storeContext, if_pos h0, storeContext]
    simp only [← hhead, hzero, h0, decide_true, if_true, hpop, Option.bind_eq_bind, Option.bind_some,
      Option.map_some]
    exact ⟨_, hkeeps head.cpu.cpsr rfl, rfl⟩
  · rw [WagtailScheduler.storeContext, if_neg h0, storeContext]
    simp only [← hhead, hzero, h0, decide_false, Bool.false_eq_true, if_false]
    cases hproc : m.kernel.process m.kernel.registerBlock with
    | none =>
      refine ⟨m.cpu, ⟨rfl, rfl, fun _ _ => rfl, rfl, rfl, rfl⟩, ?_⟩
      have hproc' : head.kernel.process m.kernel.registerBlock = none := hproc
      simp [storeRegisters, Machine.stmiaUser, hget, Kernel.modifyProcess, hproc, hproc']
    | some proc =>
      obtain ⟨cpsr, hmode, heq⟩ := @storeRegisters_eq head link rest proc _ _
        (by rw [hget]; exact hproc) hhstack
      have hstored : stored head link = stored m link := by
        have huser : head.cpu.user = m.cpu.user :=
          user_congr rfl rfl (Function.update_of_ne (Ne.symm hbank) ..)
        simp only [stored, huser]
        rfl
      refine ⟨_, hkeeps cpsr hmode, ?_⟩
      rw [heq, modifyProcess_eq hproc, hget, hstored]
      rfl

theorem callStoreContext_eq (m : Machine) (behind : Nat) (hbank : bank m.cpu.mode ≠ usr) :
    ∃ cpsr : Psr, cpsr.mode = m.cpu.mode ∧ callStoreContext m behind =
      (WagtailScheduler.storeContext m.kernel (stored m (m.cpu.get .lr))).map fun kernel =>
        ⟨{ m.cpu with cpsr }, kernel⟩ := by
  set called := (m.exec (·.push [.lr])).exec (·.set .lr behind) with hcalled
  obtain ⟨cpu, hkeeps, hstore⟩ := @storeContext_eq called (m.cpu.get .lr)
    (m.cpu.stack m.cpu.mode) (Function.update_self ..) hbank
  have hstored : stored called (m.cpu.get .lr) = stored m (m.cpu.get .lr) := by
    have huser : called.cpu.user = m.cpu.user := set_lr_user (c := m.cpu.push [.lr]) hbank behind
    simp only [stored, huser]
    rfl
  have hbehind : called.cpu.get .lr = behind := get_set (m.cpu.push [.lr]) .lr behind
  have hkernel : called.kernel = m.kernel := rfl
  have hmode : cpu.mode = m.cpu.mode := hkeeps.mode
  have hstack : cpu.stack = Function.update m.cpu.stack m.cpu.mode
      (m.cpu.get .lr :: m.cpu.stack m.cpu.mode) := hkeeps.stack
  have hpop := @pop_eq cpu [(.lr, m.cpu.get .lr)] (m.cpu.stack m.cpu.mode) (by
    rw [hstack, hmode]
    exact Function.update_self ..)
  have hcpu : (cpu.load [(.lr, m.cpu.get .lr)]).setStack cpu.mode (m.cpu.stack m.cpu.mode) =
      { m.cpu with cpsr := cpu.cpsr } := by
    ext1
    · exact hkeeps.r
    · exact hkeeps.usrSp
    · funext mode
      show Function.update cpu.lr (bank cpu.mode) (m.cpu.lr (bank m.cpu.mode)) mode = m.cpu.lr mode
      by_cases h : mode = bank m.cpu.mode
      · rw [h, hmode, Function.update_self]
      · rw [hmode, Function.update_of_ne h, hkeeps.lr mode h]
        exact Function.update_of_ne h ..
    · exact hkeeps.spsr
    · show Function.update cpu.stack cpu.mode (m.cpu.stack m.cpu.mode) = m.cpu.stack
      rw [hstack, hmode, Function.update_idem, Function.update_eq_self]
    · rfl
  simp only [List.map_cons, List.map_nil, hcpu] at hpop
  refine ⟨cpu.cpsr, hmode, ?_⟩
  rw [callStoreContext]
  simp only [Machine.call, ← hcalled, hstore, hstored, hbehind, hkernel]
  cases WagtailScheduler.storeContext m.kernel (stored m (m.cpu.get .lr)) with
  | none => rfl
  | some k => simp [Machine.execPop, hpop]

/-! ## Restoring -/

theorem ldr_eq {base : Reg} {p : Nat} {proc : Process} (rt : Reg) (i : Nat)
    (hbase : m.cpu.get base = p) (hproc : m.kernel.process p = some proc) :
    m.ldr rt base i = some (m.exec (·.set rt (getWord proc.registers i))) := by
  rw [Machine.ldr, hbase, hproc, Option.map_some]

theorem ldmiaUser_eq {base : Reg} {p : Nat} {proc : Process} (hbase : m.cpu.get base = p)
    (hproc : m.kernel.process p = some proc) :
    m.ldmiaUser base = some (m.exec (·.setUser proc.registers.r)) := by
  rw [Machine.ldmiaUser, hbase, hproc, Option.map_some]

/-- The context of a register block, ready to be returned to. -/
structure Restores (registers : Registers) (cpu : Cpu) : Prop where
  user : cpu.leave.user = registers.r
  psr : cpu.leave.cpsr = Psr.ofWord registers.spsr
  returnAddress : cpu.get .lr = registers.returnAddress

theorem restoreContext_block {proc : Process} (h0 : m.kernel.registerBlock ≠ 0)
    (hproc : m.kernel.process m.kernel.registerBlock = some proc)
    (hbank : bank m.cpu.mode ≠ usr) :
    ∃ cpu, Restores proc.registers cpu ∧
      restoreContext m = some (.returns (m.cpu.get .lr) ⟨cpu, m.kernel⟩) := by
  set head : Machine := ((m.exec (·.push [.lr])).ldrRegisterBlock).exec (·.cmp .lr 0) with hhead
  have hzero : head.cpu.cpsr.zero = false :=
    (registerBlock_zero (m.exec (·.push [.lr]))).trans (decide_eq_false h0)
  have hget : head.cpu.get .lr = m.kernel.registerBlock := registerBlock_get _
  have hspsr := ldr_eq r0 spsrOffset hget hproc
  set m₁ := (head.exec (·.set r0 (getWord proc.registers spsrOffset))).exec fun c =>
    c.msrSpsr (c.get r0) with hm₁
  have hget₁ : m₁.cpu.get .lr = m.kernel.registerBlock := hget
  have huser := ldmiaUser_eq (m := m₁) hget₁ hproc
  set m₂ := m₁.exec (·.setUser proc.registers.r) with hm₂
  have hget₂ : m₂.cpu.get .lr = m.kernel.registerBlock := by
    rw [← hget₁]
    exact Function.update_of_ne hbank ..
  have haddress := ldr_eq (m := m₂) .lr returnAddressOffset hget₂ hproc
  set m₃ := m₂.exec (·.set .lr (getWord proc.registers returnAddressOffset)) with hm₃
  have hpop := @popPc_eq m₃.cpu [] (m.cpu.get .lr) (m.cpu.stack m.cpu.mode)
    (Function.update_self ..)
  rw [restoreContext]
  simp only [← hhead, hzero, Bool.false_eq_true, if_false, hspsr, Option.bind_eq_bind,
    Option.bind_some, ← hm₁, huser, haddress]
  rw [List.map_nil] at hpop
  simp only [hpop, Option.bind_some]
  refine ⟨_, ⟨?_, ?_, ?_⟩, rfl⟩
  · exact (set_lr_user (c := m₂.cpu) hbank _).trans (setUser_user m₁.cpu _)
  · exact (Function.update_self ..).trans (congrArg Psr.ofWord (get_set head.cpu r0 _))
  · exact (setStack_get ..).trans (get_set m₂.cpu .lr _)

theorem restoreContext_idle (h0 : m.kernel.registerBlock = 0) :
    ∃ cpu : Cpu, cpu.mode = m.cpu.mode ∧ restoreContext m = some (.waits ⟨cpu, m.kernel⟩) := by
  have hzero : ((m.exec (·.push [.lr])).ldrRegisterBlock.exec (·.cmp .lr 0)).cpu.cpsr.zero = true :=
    (registerBlock_zero (m.exec (·.push [.lr]))).trans (decide_eq_true h0)
  rw [restoreContext]
  simp only [hzero, if_true]
  refine ⟨_, ?_, rfl⟩
  rfl

/-! ## Interrupts -/

variable {virtualToPhysical : Nat → Nat} {site : Site → Nat} {sirIrq : Nat} {x : Returned}

/-- What comes of an interrupt of the timer that leaves this kernel. -/
inductive Switched (k : Kernel) : Outcome → Prop where
  | halts {cpu : Cpu} : k.halted = true → Switched k (.halts ⟨cpu, k⟩)
  | waits {cpu : Cpu} : k.halted = false → k.registerBlock = 0 → Switched k (.waits ⟨cpu, k⟩)
  | resumes {cpu : Cpu} {proc : Process} : k.halted = false → k.registerBlock ≠ 0 →
      k.process k.registerBlock = some proc → cpu.user = proc.registers.r →
      cpu.cpsr = Psr.ofWord proc.registers.spsr →
      Switched k (.resumes (sub proc.registers.returnAddress 4) ⟨cpu, k⟩)

theorem handleIrq_timer (hsir : sirIrq &&& 0x7f = timerIrq) :
    handleIrq virtualToPhysical m sirIrq x =
      (WagtailScheduler.interrupt virtualToPhysical m.kernel).map fun kernel =>
        ⟨m.cpu.returns x, kernel⟩ := by
  simp only [handleIrq, handledKernel, if_pos hsir]

theorem switchContext_none (hsir : sirIrq &&& 0x7f = timerIrq) (hbank : bank m.cpu.mode ≠ usr)
    (h : WagtailScheduler.perform virtualToPhysical m.kernel
      (.interrupt (stored m (m.cpu.get .lr))) = none) :
    switchContext virtualToPhysical site m sirIrq x = none := by
  obtain ⟨cpsr, hmode, hstore⟩ := callStoreContext_eq m (site .switchStore) hbank
  simp only [switchContext, hstore, handleIrq_timer hsir]
  simp only [WagtailScheduler.perform] at h
  cases hk : WagtailScheduler.storeContext m.kernel (stored m (m.cpu.get .lr)) with
  | none => rfl
  | some k =>
    rw [hk, Option.bind_eq_bind, Option.bind_some] at h
    simp [h]

/-- The timer's interrupt comes of what the scheduler makes of the context that it has found. -/
theorem switchContext_some {k : Kernel} (hsir : sirIrq &&& 0x7f = timerIrq)
    (hbank : bank m.cpu.mode ≠ usr)
    (h : WagtailScheduler.perform virtualToPhysical m.kernel
      (.interrupt (stored m (m.cpu.get .lr))) = some k)
    (hblock : k.registerBlock ≠ 0 → k.process k.registerBlock ≠ none) :
    ∃ o, switchContext virtualToPhysical site m sirIrq x = some o ∧ Switched k o := by
  obtain ⟨cpsr, hmode, hstore⟩ := callStoreContext_eq m (site .switchStore) hbank
  obtain ⟨k₁, hk₁, hk⟩ := Option.bind_eq_some_iff.mp h
  have hkk : WagtailScheduler.interrupt virtualToPhysical k₁ = some k := hk
  simp only [switchContext, hstore, hk₁, Option.map_some, Option.bind_eq_bind, Option.bind_some,
    handleIrq_timer hsir, hkk]
  cases hhalted : k.halted with
  | true => exact ⟨_, rfl, .halts hhalted⟩
  | false =>
    simp only [Bool.false_eq_true, if_false]
    set m₁ : Machine := (⟨Cpu.returns { m.cpu with cpsr } x, k⟩ : Machine).exec
      (·.set .lr (site .switchRestore)) with hm₁
    have hbank₁ : bank m₁.cpu.mode ≠ usr := by
      show bank cpsr.mode ≠ usr
      rwa [hmode]
    by_cases h0 : k.registerBlock = 0
    · obtain ⟨cpu, -, hwaits⟩ := restoreContext_idle (m := m₁) h0
      rw [hwaits]
      exact ⟨_, rfl, .waits hhalted h0⟩
    · obtain ⟨proc, hproc⟩ := Option.ne_none_iff_exists'.mp (hblock h0)
      obtain ⟨cpu, hrestores, hreturns⟩ := restoreContext_block (m := m₁) h0 hproc hbank₁
      have hbehind : m₁.cpu.get .lr = site .switchRestore :=
        get_set (Cpu.returns { m.cpu with cpsr } x) .lr _
      rw [hreturns, hbehind]
      simp only [Option.bind_some, if_true]
      refine ⟨_, rfl, ?_⟩
      rw [hrestores.returnAddress]
      exact .resumes hhalted h0 hproc hrestores.user hrestores.psr

theorem checkTimer_eq (m : Machine) (sirIrq : Nat) :
    ∃ cpsr : Psr, cpsr.mode = m.cpu.mode ∧ cpsr.zero = decide (sirIrq &&& 0xff = timerIrq) ∧
      checkTimer m sirIrq = some ⟨{ m.cpu.resetStack with cpsr }, m.kernel⟩ := by
  set loaded := (m.cpu.resetStack.push [r0]).set r0 sirIrq with hloaded
  set c := (loaded.set r0 (loaded.get r0 &&& 0xff)).cmp r0 timerIrq with hc
  have hzero : c.cpsr.zero = decide (sirIrq &&& 0xff = timerIrq) := by
    rw [hc, cmp_zero, get_set, hloaded, get_set]
    rfl
  have hstack : c.stack = Function.update m.cpu.resetStack.stack m.cpu.mode [m.cpu.get r0] := by
    show Function.update m.cpu.resetStack.stack m.cpu.mode
      (m.cpu.get r0 :: m.cpu.resetStack.stack m.cpu.mode) = _
    rw [show m.cpu.resetStack.stack m.cpu.mode = [] from Function.update_self ..]
  have hpop := @pop_eq c [(r0, m.cpu.get r0)] [] (by
    rw [hstack]
    exact Function.update_self ..)
  have hcpu : (c.load [(r0, m.cpu.get r0)]).setStack c.mode [] =
      { m.cpu.resetStack with cpsr := c.cpsr } := by
    simp only [hc, hloaded, Cpu.load, Cpu.set, Cpu.cmp, Cpu.push, Cpu.setStack, Cpu.resetStack,
      Function.update_idem, Cpu.get, Function.update_eq_self]
  simp only [List.map_cons, List.map_nil, hcpu] at hpop
  refine ⟨c.cpsr, rfl, hzero, ?_⟩
  show (c.pop [r0]).map _ = _
  rw [hpop]
  rfl

/-- What does not switch contexts returns to what has been interrupted. -/
theorem intIrq_returns {k : Kernel} (hsir : sirIrq &&& 0xff ≠ timerIrq) (hmode : m.cpu.mode = irq)
    (h : handledKernel virtualToPhysical m.kernel sirIrq = some k) (hhalted : k.halted = false) :
    intIrq virtualToPhysical site m sirIrq x = some (.returns (sub (m.cpu.get .lr) 4)
      ⟨{ m.cpu.resetStack with cpsr := m.cpu.spsr irq }, k⟩) := by
  obtain ⟨cpsr, hcpsr, hzero, hcheck⟩ := checkTimer_eq m sirIrq
  rw [intIrq, hcheck]
  simp only [Option.bind_eq_bind, Option.bind_some, hzero, hsir, decide_false, Bool.false_eq_true,
    if_false, handleIrq, Machine.exec, h, Option.map_some, hhalted, Machine.execPop, pop_returns]
  simp only [Cpu.get, Cpu.leave, Cpu.returns, Cpu.mode, hcpsr]
  rw [show m.cpu.cpsr.mode = irq from hmode]
  rfl

/-- Without a process to choose, the scheduler does not return. -/
theorem intIrq_halts {k : Kernel} (hsir : sirIrq &&& 0xff ≠ timerIrq)
    (h : handledKernel virtualToPhysical m.kernel sirIrq = some k) (hhalted : k.halted = true) :
    ∃ cpu, intIrq virtualToPhysical site m sirIrq x = some (.halts ⟨cpu, k⟩) := by
  obtain ⟨cpsr, -, hzero, hcheck⟩ := checkTimer_eq m sirIrq
  rw [intIrq, hcheck]
  simp only [Option.bind_eq_bind, Option.bind_some, hzero, hsir, decide_false, Bool.false_eq_true,
    if_false, handleIrq, Machine.exec, h, Option.map_some, hhalted, if_true]
  exact ⟨_, rfl⟩

/-- The interrupt of the timer is a context switch. -/
theorem intIrq_timer (hsir : sirIrq &&& 0xff = timerIrq) (hmode : m.cpu.mode = irq) :
    ∃ cpsr : Psr, cpsr.mode = irq ∧ intIrq virtualToPhysical site m sirIrq x =
      switchContext virtualToPhysical site ⟨{ m.cpu.resetStack with cpsr }, m.kernel⟩ sirIrq x := by
  obtain ⟨cpsr, hcpsr, hzero, hcheck⟩ := checkTimer_eq m sirIrq
  refine ⟨cpsr, hcpsr.trans hmode, ?_⟩
  rw [intIrq, hcheck]
  simp only [Option.bind_eq_bind, Option.bind_some, hzero, hsir, decide_true, if_true]

/-! ## System calls -/

/-- The registers that a handler of system calls finds. -/
def shifted (r : Fin 13 → Nat) (number : Nat) (i : Fin 13) : Nat :=
  if i.val = 0 then number
  else if i.val < 4 then r ⟨i.val - 1, by omega⟩
  else r i

theorem tst_zero (c : Cpu) (reg : Reg) : (c.tst reg 1).cpsr.zero = decide (c.get reg % 2 = 0) := by
  simp only [Cpu.tst, Nat.and_one_is_mod]
  by_cases h : c.get reg % 2 = 0 <;> simp [h]

/-- An even return address stands behind a halfword with the number. -/
theorem loadNumber_eq (m : Machine) (halfword word : Nat) (heven : m.cpu.get .lr % 2 = 0) :
    ∃ cpsr : Psr, cpsr.mode = m.cpu.mode ∧ loadNumber m halfword word =
      some ⟨{ m.cpu with r := shifted m.cpu.r (halfword &&& 0xff), cpsr }, m.kernel⟩ := by
  set c := ((m.cpu.push [r0, r1, r2]).tst .lr 1).set r0 halfword with hc
  have hzero : ((m.exec (·.push [r0, r1, r2])).exec (·.tst .lr 1)).cpu.cpsr.zero = true :=
    (tst_zero (m.cpu.push [r0, r1, r2]) .lr).trans (decide_eq_true heven)
  have hpop := @pop_eq (c.set r0 (c.get r0 &&& 0xff))
    [(r1, m.cpu.get r0), (r2, m.cpu.get r1), (r3, m.cpu.get r2)] (m.cpu.stack m.cpu.mode)
    (Function.update_self ..)
  simp only [List.map_cons, List.map_nil] at hpop
  have hpop' : (((m.exec (·.push [r0, r1, r2])).exec (·.tst .lr 1)).exec (·.set r0 halfword)).exec
      (fun c => c.set r0 (c.get r0 &&& 0xff)) = ⟨c.set r0 (c.get r0 &&& 0xff), m.kernel⟩ := rfl
  simp only [loadNumber, hzero, if_true, hpop', Machine.execPop, hpop, Option.map_some]
  refine ⟨c.cpsr, rfl, congrArg some ?_⟩
  congr 1
  ext1
  · funext i
    have hn : c.get r0 = halfword := get_set ..
    rw [hn]
    fin_cases i <;> rfl
  · rfl
  · rfl
  · rfl
  · exact (Function.update_idem ..).trans (Function.update_eq_self ..)
  · rfl

/-- The kernel behind the handler of a system call, and the result if there is one to return
with. -/
def handledCall (virtualToPhysical : Nat → Nat) (k : Kernel) (r : Fin 15 → Nat) (number : Nat)
    (a : Allocation) : Option (Kernel × Option Nat) :=
  match number with
  | 1 => (WagtailScheduler.syscallExit k (r WagtailScheduler.r0)).map fun k => (k, none)
  | 2 => (WagtailScheduler.syscallFork virtualToPhysical k a.child a.proc a.linked a.usable
      a.table).map fun made => (made.1, some made.2)
  | 3 => (WagtailScheduler.syscallWait k (r WagtailScheduler.r0) (r userR1) a.block a.memory).map
      fun k => (k, none)
  | _ => some (k, some 0)

/-- The other system calls are invalid. -/
theorem handledCall_other {k : Kernel} {r : Fin 15 → Nat} {number : Nat} {a : Allocation}
    (h : number ∉ [1, 2, 3]) :
    handledCall virtualToPhysical k r number a = some (k, some 0) := by
  match number with
  | 0 => rfl
  | 1 | 2 | 3 => simp at h
  | number + 4 => rfl

theorem handleSyscall_eq {r : Fin 13 → Nat} {number : Nat} {user : Fin 15 → Nat}
    (hr : m.cpu.r = shifted r number) (huser0 : user WagtailScheduler.r0 = r 0)
    (huser1 : user userR1 = r 1)
    (a : Allocation) (x : Returned) :
    handleSyscall virtualToPhysical m a x =
      (handledCall virtualToPhysical m.kernel user number a).map fun made => match made.2 with
        | none => .waits ⟨enableInterrupts m.cpu, made.1⟩
        | some result => .returns 0 ⟨m.cpu.returns { x with r0 := result }, made.1⟩ := by
  have hnumber : m.cpu.get r0 = number := congrFun hr 0
  have hr1 : m.cpu.get r1 = user WagtailScheduler.r0 := (congrFun hr 1).trans huser0.symm
  have hr2 : m.cpu.get r2 = user userR1 := (congrFun hr 2).trans huser1.symm
  rw [handleSyscall, hnumber, hr1, hr2]
  match number with
  | 0 => rfl
  | 1 => cases h : WagtailScheduler.syscallExit m.kernel (user WagtailScheduler.r0) <;> simp [handledCall, h]
  | 2 =>
    cases h : WagtailScheduler.syscallFork virtualToPhysical m.kernel a.child a.proc a.linked
      a.usable a.table <;> simp [handledCall, h]
  | 3 =>
    cases h : WagtailScheduler.syscallWait m.kernel (user WagtailScheduler.r0) (user userR1) a.block a.memory <;>
      simp [handledCall, h]
  | number + 4 => rfl

theorem intSvc_eq (m : Machine) (halfword word : Nat) (a : Allocation) (x : Returned)
    (hmode : m.cpu.mode = svc) (heven : m.cpu.get .lr % 2 = 0) :
    ∃ cpu : Cpu, cpu.mode = svc ∧ intSvc virtualToPhysical site m halfword word a x =
      ((WagtailScheduler.storeContext m.kernel (stored m (m.cpu.get .lr))).bind fun k =>
        handledCall virtualToPhysical k m.cpu.user (halfword &&& 0xff) a).map
          fun made => match made.2 with
            | none => .waits ⟨cpu, made.1⟩
            | some result => .returns (m.cpu.get .lr) ⟨{ m.cpu.resetStack with
                r := answered m.cpu.r { x with r0 := result }
                cpsr := m.cpu.spsr svc }, made.1⟩ := by
  have hbank : bank (m.exec (·.resetStack)).cpu.mode ≠ usr := by
    show bank m.cpu.mode ≠ usr
    rw [hmode]
    decide
  obtain ⟨cpsr₁, hcpsr₁, hstore⟩ := callStoreContext_eq (m.exec (·.resetStack)) (site .svcStore) hbank
  have hstored : stored (m.exec (·.resetStack)) ((m.exec (·.resetStack)).cpu.get .lr) =
    stored m (m.cpu.get .lr) := rfl
  rw [hstored] at hstore
  cases hk : WagtailScheduler.storeContext m.kernel (stored m (m.cpu.get .lr)) with
  | none =>
    have hnone : callStoreContext (m.exec (·.resetStack)) (site .svcStore) = none := by
      rw [hstore]
      exact congrArg (Option.map _) hk
    exact ⟨m.cpu, hmode, by simp [intSvc, hnone]⟩
  | some k =>
    set m₁ : Machine := ⟨{ m.cpu.resetStack with cpsr := cpsr₁ }, k⟩ with hm₁
    have hsome : callStoreContext (m.exec (·.resetStack)) (site .svcStore) = some m₁ := by
      rw [hstore]
      exact congrArg (Option.map _) hk
    have hlr : m₁.cpu.get .lr = m.cpu.get .lr := by
      show m.cpu.lr (bank cpsr₁.mode) = m.cpu.lr (bank m.cpu.mode)
      rw [hcpsr₁]
      rfl
    obtain ⟨cpsr₂, hcpsr₂, hload⟩ := loadNumber_eq m₁ halfword word (by rw [hlr]; exact heven)
    set m₂ : Machine := ⟨{ m₁.cpu with r := shifted m₁.cpu.r (halfword &&& 0xff), cpsr := cpsr₂ },
      k⟩ with hm₂
    have hcall := @handleSyscall_eq (m₂.exec (·.push [ip, .lr])) virtualToPhysical _ _ m.cpu.user
      rfl rfl rfl a x
    refine ⟨enableInterrupts (m₂.cpu.push [ip, .lr]), hcpsr₂.trans (hcpsr₁.trans hmode), ?_⟩
    simp only [intSvc, hsome, hload, hcall, Option.bind_eq_bind, Option.bind_some]
    have hkernel : (m₂.exec (·.push [ip, .lr])).kernel = k := rfl
    rw [hkernel]
    cases handledCall virtualToPhysical k m.cpu.user (halfword &&& 0xff) a with
    | none => rfl
    | some made =>
      obtain ⟨k', result⟩ := made
      cases result with
      | none => rfl
      | some result =>
        simp only [Option.map_some, Option.bind_some, Machine.execPop, Machine.exec, pop_answered]
        have hcpsr : cpsr₂.mode = svc := hcpsr₂.trans (hcpsr₁.trans hmode)
        have hlr₂ : Cpu.get { m₂.cpu with
            r := answered m₂.cpu.r { x with r0 := result }
            cpsr := (m₂.cpu.returns { x with r0 := result }).cpsr } .lr = m.cpu.get .lr := by
          show m.cpu.lr (bank cpsr₂.mode) = m.cpu.lr (bank m.cpu.mode)
          rw [hcpsr, hmode]
        rw [hlr₂]
        congr 3
        ext1
        · funext i
          fin_cases i <;> rfl
        · rfl
        · rfl
        · rfl
        · rfl
        · exact congrArg m.cpu.spsr hcpsr

/-! ## Aborts -/

/-- What is saved on the stack of another mode is returned to. -/
theorem rfeia_srsdb (c : Cpu) (cpsr : Psr) (hmode : cpsr.mode = svc) :
    Cpu.rfeia { (c.srsdb svc) with cpsr } =
      some (c.get .lr, { c with cpsr := c.spsr c.mode }) := by
  simp only [Cpu.rfeia, Cpu.popWord, Cpu.mode, Cpu.srsdb, Cpu.setStack, Cpu.mrsSpsr]
  simp [hmode]

/-- The message of an abort is printed between two instructions. -/
theorem reportAbort_eq (m : Machine) (x : Returned) :
    reportAbort m x = some (.returns (sub (m.cpu.get .lr) 4)
      ⟨{ m.cpu.set .lr (sub (m.cpu.get .lr) 4) with cpsr := m.cpu.spsr m.cpu.mode },
        m.kernel⟩) := by
  set c := m.cpu.set .lr (sub (m.cpu.get .lr) 4) with hc
  have hget : c.get .lr = sub (m.cpu.get .lr) 4 := get_set ..
  have hrfeia : Cpu.rfeia { (c.srsdb svc).cps svc with
      cpsr := (((c.srsdb svc).cps svc).returns x).cpsr } =
        some (c.get .lr, { c with cpsr := c.spsr c.mode }) := rfeia_srsdb c _ rfl
  simp only [reportAbort, Machine.exec, Machine.execPop, pop_returns, Option.map_some,
    Option.bind_eq_bind, Option.bind_some, ← hc, hrfeia, hget]
  rfl

theorem intFiq_eq (m : Machine) :
    intFiq m = some (.returns (sub (m.cpu.get .lr) 4)
      ⟨{ m.cpu.set .lr (sub (m.cpu.get .lr) 4) with cpsr := m.cpu.spsr m.cpu.mode },
        m.kernel⟩) := by
  set c := m.cpu.set .lr (sub (m.cpu.get .lr) 4) with hc
  have hget : c.get .lr = sub (m.cpu.get .lr) 4 := get_set ..
  have hrfeia : Cpu.rfeia ((c.srsdb svc).cps svc) =
      some (c.get .lr, { c with cpsr := c.spsr c.mode }) := rfeia_srsdb c _ rfl
  simp only [intFiq, Machine.exec, Option.bind_eq_bind, ← hc, hrfeia, hget, Option.bind_some]
  rfl

end WagtailInterrupts
