import Wagtail.Library.Arm
import Wagtail.SchedulerFork

/-!
# Interrupt handlers and the context switch

`interrupts.S` and `context_switch.S`, instruction by instruction, on a processor
beside the objects of the kernel. The functions in C++ that the handlers call are
those of the scheduler; what they leave in the registers is a parameter.
-/
namespace WagtailInterrupts

open Arm
open Word (wrap sub)
open WagtailScheduler (Kernel Process Registers Waitblock Event Action)

/-! ## The processor and the kernel -/

/-- A register block is part of a process: a pointer to the block is kept as the pointer to its
process. -/
structure Machine where
  cpu : Cpu
  kernel : Kernel

def Machine.exec (m : Machine) (f : Cpu → Cpu) : Machine := { m with cpu := f m.cpu }

def Machine.execPop (m : Machine) (f : Cpu → Option Cpu) : Option Machine :=
  (f m.cpu).map fun cpu => { m with cpu }

/-- The status register and the return address stand behind the 15 registers of a block. -/
def spsrOffset : Nat := 15

def returnAddressOffset : Nat := 16

/-- The words of `register_contents`, in order. -/
def getWord (registers : Registers) (i : Nat) : Nat :=
  if h : i < 15 then registers.r ⟨i, h⟩
  else if i = spsrOffset then registers.spsr
  else registers.returnAddress

def setWord (registers : Registers) (i value : Nat) : Registers :=
  if h : i < 15 then { registers with r := Function.update registers.r ⟨i, h⟩ value }
  else if i = spsrOffset then { registers with spsr := value }
  else { registers with returnAddress := value }

/-- `ldr` of a word of the block that `base` points to. -/
def Machine.ldr (m : Machine) (rt base : Reg) (i : Nat) : Option Machine :=
  (m.kernel.process (m.cpu.get base)).map fun proc =>
    m.exec (·.set rt (getWord proc.registers i))

/-- `str` to a word of the block. -/
def Machine.str (m : Machine) (rt base : Reg) (i : Nat) : Option Machine :=
  (m.kernel.modifyProcess (m.cpu.get base) fun proc =>
    { proc with registers := setWord proc.registers i (m.cpu.get rt) }).map fun kernel =>
      { m with kernel }

/-- `stmia` of the user mode registers `r0` to `lr`. -/
def Machine.stmiaUser (m : Machine) (base : Reg) : Option Machine :=
  (m.kernel.modifyProcess (m.cpu.get base) fun proc =>
    { proc with registers := { proc.registers with r := m.cpu.user } }).map fun kernel =>
      { m with kernel }

/-- `ldmia` of the user mode registers `r0` to `lr`. -/
def Machine.ldmiaUser (m : Machine) (base : Reg) : Option Machine :=
  (m.kernel.process (m.cpu.get base)).map fun proc => m.exec (·.setUser proc.registers.r)

/-- `ldr lr, =register_block` and `ldr lr, [lr]`. -/
def Machine.ldrRegisterBlock (m : Machine) : Machine := m.exec (·.set .lr m.kernel.registerBlock)

/-- A call of code in assembly, with the address behind the call. Control is lost if it does not
return there. -/
def Machine.call (m : Machine) (behind : Nat) (f : Machine → Option (Nat × Machine)) :
    Option Machine := do
  let (pc, m) ← f (m.exec (·.set .lr behind))
  if pc = behind then some m else none

/-! ## Context switching -/

/-- The part of `store_context` that has a register block. -/
def storeRegisters (m : Machine) : Option (Nat × Machine) := do
  let m ← m.stmiaUser .lr
  let m ← (m.exec fun c => c.set r0 c.mrsSpsr).str r0 .lr spsrOffset
  let m := m.exec fun c => c.set r0 c.mrsCpsr
  -- `bfc r0, #6, #26`
  let m := m.exec fun c => c.set r0 (c.get r0 % 2 ^ 6)
  let m := m.exec (·.cmp r0 svc.toNat)
  -- `ldr r0, [sp, #8]`: the word that the caller has pushed
  let link ← (m.cpu.stack m.cpu.mode)[2]?
  let m := m.exec (·.set r0 link)
  let m := if m.cpu.cpsr.zero then m.exec fun c => c.set r0 (wrap (c.get r0 + 4)) else m
  let m ← m.str r0 .lr returnAddressOffset
  let (pc, cpu) ← m.cpu.popPc [r0]
  some (pc, { m with cpu })

/-- `store_context`, with the word that it returns to. -/
def storeContext (m : Machine) : Option (Nat × Machine) := do
  let m := m.exec (·.push [r0, .lr])
  let m := m.ldrRegisterBlock
  let m := m.exec (·.cmp .lr 0)
  if m.cpu.cpsr.zero then
    let (pc, cpu) ← m.cpu.popPc [r0]
    some (pc, { m with cpu })
  else storeRegisters m

/-- `push {lr}`, a call of `store_context` and `pop {lr}`. -/
def callStoreContext (m : Machine) (behind : Nat) : Option Machine := do
  let m := m.exec (·.push [.lr])
  let m ← m.call behind storeContext
  m.execPop (·.pop [.lr])

/-- `restore_context` returns, or waits for the next interrupt. -/
inductive Restored where
  | returns (pc : Nat) (m : Machine)
  | waits (m : Machine)

/-- `cpsie if`. -/
def enableInterrupts (c : Cpu) : Cpu :=
  { c with cpsr := { c.cpsr with irqDisabled := false, fiqDisabled := false } }

/-- `restore_context`. -/
def restoreContext (m : Machine) : Option Restored := do
  let m := m.exec (·.push [.lr])
  let m := m.ldrRegisterBlock
  let m := m.exec (·.cmp .lr 0)
  if m.cpu.cpsr.zero then some (.waits (m.exec enableInterrupts))
  else do
    let m ← m.ldr r0 .lr spsrOffset
    let m := m.exec fun c => c.msrSpsr (c.get r0)
    let m ← m.ldmiaUser .lr
    let m ← m.ldr .lr .lr returnAddressOffset
    let (pc, cpu) ← m.cpu.popPc []
    some (.returns pc { m with cpu })

/-- What a handler comes to: a context that it has restored, what it has interrupted, a wait for
the next interrupt, or the end. -/
inductive Outcome where
  | resumes (pc : Nat) (m : Machine)
  | returns (pc : Nat) (m : Machine)
  | waits (m : Machine)
  | halts (m : Machine)

/-- The calls of assembly code, for the addresses behind them. -/
inductive Site where
  | switchStore
  | switchRestore
  | svcStore
  deriving DecidableEq, Repr

variable (virtualToPhysical : Nat → Nat) (site : Site → Nat)

/-- The interrupt of timer 0, which the scheduler uses. -/
def timerIrq : Nat := 37

/-- The handler of the timer is the scheduler's, and the handlers of other interrupts leave the
scheduler alone. -/
def handledKernel (k : Kernel) (sirIrq : Nat) : Option Kernel :=
  let number := sirIrq &&& 0x7f
  if number = timerIrq then WagtailScheduler.interrupt virtualToPhysical k else some k

/-- `handle_irq`, with what the interrupt controller reads as the current interrupt. -/
def handleIrq (m : Machine) (sirIrq : Nat) (x : Returned) : Option Machine :=
  (handledKernel virtualToPhysical m.kernel sirIrq).map fun kernel =>
    { kernel, cpu := m.cpu.returns x }

/-- `switch_context`. -/
def switchContext (m : Machine) (sirIrq : Nat) (x : Returned) : Option Outcome := do
  let m ← callStoreContext m (site .switchStore)
  let m ← handleIrq virtualToPhysical m sirIrq x
  if m.kernel.halted then some (.halts m)
  else do
    match ← restoreContext (m.exec (·.set .lr (site .switchRestore))) with
    | .waits m => some (.waits m)
    | .returns pc m =>
      if pc = site .switchRestore then
        -- `subs pc, lr, #4`
        some (.resumes (sub (m.cpu.get .lr) 4) (m.exec Cpu.leave))
      else none

/-! ## Exception handlers -/

/-- The head of `int_irq`: the zero flag says whether the timer has interrupted. -/
def checkTimer (m : Machine) (sirIrq : Nat) : Option Machine :=
  let m := m.exec (·.resetStack)
  let m := m.exec (·.push [r0])
  -- `ldr r0, =intc_base` and `ldr r0, [r0]` are for the address of what is loaded here
  let m := m.exec (·.set r0 sirIrq)
  let m := m.exec fun c => c.set r0 (c.get r0 &&& 0xff)
  let m := m.exec (·.cmp r0 timerIrq)
  m.execPop (·.pop [r0])

/-- `int_irq`. -/
def intIrq (m : Machine) (sirIrq : Nat) (x : Returned) : Option Outcome := do
  let m ← checkTimer m sirIrq
  if m.cpu.cpsr.zero then switchContext virtualToPhysical site m sirIrq x
  else do
    let m := m.exec (·.push callerSaved)
    let m ← handleIrq virtualToPhysical m sirIrq x
    if m.kernel.halted then some (.halts m)
    else do
      let m ← m.execPop (·.pop callerSaved)
      some (.returns (sub (m.cpu.get .lr) 4) (m.exec Cpu.leave))

/-- What a system call finds in memory: room for a wait block, or what `process::fork` makes. -/
structure Allocation where
  block : Nat
  memory : Waitblock
  child : Nat
  proc : Process
  linked : Bool
  usable : Bool
  table : Nat

/-- `r1` of user mode, with the second argument of a system call. -/
def userR1 : Fin 15 := ⟨1, by decide⟩

/-- `handle_syscall` and the handlers that the scheduler has registered. The arguments are in `r0`
to `r3`, and the handlers that do not return wait for an interrupt. -/
def handleSyscall (m : Machine) (a : Allocation) (x : Returned) : Option Restored :=
  match m.cpu.get r0 with
  | 1 => do
    let kernel ← WagtailScheduler.syscallExit m.kernel (m.cpu.get r1)
    some (.waits { cpu := enableInterrupts m.cpu, kernel })
  | 2 => do
    let (kernel, result) ← WagtailScheduler.syscallFork virtualToPhysical m.kernel a.child a.proc
      a.linked a.usable a.table
    some (.returns 0 { cpu := m.cpu.returns { x with r0 := result }, kernel })
  | 3 => do
    let kernel ← WagtailScheduler.syscallWait m.kernel (m.cpu.get r1) (m.cpu.get r2) a.block
      a.memory
    some (.waits { cpu := enableInterrupts m.cpu, kernel })
  | _ => some (.returns 0 (m.exec (·.returns { x with r0 := 0 })))

/-- The number of a system call goes to `r0`, and its arguments to `r1` to `r3`. -/
def loadNumber (m : Machine) (halfword word : Nat) : Option Machine :=
  let m := m.exec (·.push [r0, r1, r2])
  let m := m.exec (·.tst .lr 1)
  let m := if m.cpu.cpsr.zero then m.exec (·.set r0 halfword) else m.exec (·.set r0 word)
  let m := m.exec fun c => c.set r0 (c.get r0 &&& 0xff)
  m.execPop (·.pop [r1, r2, r3])

/-- `int_svc`, with what is in memory two and four bytes in front of the return address. -/
def intSvc (m : Machine) (halfword word : Nat) (a : Allocation) (x : Returned) :
    Option Outcome := do
  let m := m.exec (·.resetStack)
  let m ← callStoreContext m (site .svcStore)
  let m ← loadNumber m halfword word
  let m := m.exec (·.push [ip, .lr])
  match ← handleSyscall virtualToPhysical m a x with
  | .waits m => some (.waits m)
  | .returns _ m => do
    let m ← m.execPop (·.pop [ip, .lr])
    -- `movs pc, lr`
    some (.returns (m.cpu.get .lr) (m.exec Cpu.leave))

/-- The handlers of aborts, with a function that prints a message. -/
def reportAbort (m : Machine) (x : Returned) : Option Outcome := do
  let m := m.exec fun c => c.set .lr (sub (c.get .lr) 4)
  let m := m.exec (·.srsdb svc)
  let m := m.exec (·.cps svc)
  let m := m.exec (·.push callerSaved)
  let m := m.exec (·.returns x)
  let m ← m.execPop (·.pop callerSaved)
  let (pc, cpu) ← m.cpu.rfeia
  some (.returns pc { m with cpu })

/-- `int_prefetch_abort`. -/
def intPrefetchAbort (m : Machine) (x : Returned) : Option Outcome := reportAbort m x

/-- `int_data_abort`. -/
def intDataAbort (m : Machine) (x : Returned) : Option Outcome := reportAbort m x

/-- `int_undef`. -/
def intUndef (m : Machine) : Outcome := .returns (m.cpu.get .lr) (m.exec Cpu.leave)

/-- `int_fiq`. -/
def intFiq (m : Machine) : Option Outcome := do
  let m := m.exec fun c => c.set .lr (sub (c.get .lr) 4)
  let m := m.exec (·.srsdb svc)
  let m := m.exec (·.cps svc)
  let (pc, cpu) ← m.cpu.rfeia
  some (.returns pc { m with cpu })

end WagtailInterrupts
