import Mathlib.Logic.Function.Basic
import Wagtail.Kqueue
import Wagtail.Mmu

/-!
# The scheduler

`scheduler.cpp` with the parts of the process, wait block and context switch code
that it runs. Processes and wait blocks are objects in kernel memory; reaching
for one that has been deleted, or through a null pointer, is a fault and the
step has no result. A process class is known by the arguments that its
`enable_addrspace` hands to `mmu::set_application_table`: `kthread` hands over a
null table, and a class with user memory its own.
-/
namespace WagtailScheduler

open Word (wrap)
open WagtailKqueue
open WagtailMmu

/-- `register_contents`. -/
structure Registers where
  r : Fin 15 → Nat
  spsr : Nat
  returnAddress : Nat

/-- The register with the result of a system call, and the stack pointer. -/
abbrev r0 : Fin 15 := 0

abbrev sp : Fin 15 := 13

/-- What can listen for the termination of a process: a wait block, or the parent. -/
inductive Listener where
  | waitblock (address : Nat)
  | process (address : Nat)
  deriving DecidableEq, Repr

/-- The arguments of `mmu::set_application_table` in `enable_addrspace`. -/
structure Addrspace where
  table : Nat
  pid : Nat
  deriving DecidableEq, Repr

structure Process where
  pid : Nat
  exitCode : Nat
  block : Nat
  children : Kqueue Nat
  terminationListeners : Kqueue Listener
  childTerminationListener : Nat
  registers : Registers
  addrspace : Addrspace

structure Waitblock where
  waitpid : Nat
  statusLoc : Nat
  exitCode : Nat
  caller : Nat
  terminatedPid : Nat
  active : Bool
  deriving DecidableEq, Repr

/-- A word that the kernel stores to user memory, through the table that is active. What comes of
it there is `Store.perform`. -/
structure Store where
  table : Nat
  address : Nat
  value : Nat
  deriving DecidableEq, Repr

/-- The scheduler, the objects it works on, and what it writes outside of them.
`registerBlock` is the process whose registers the pointer points to. -/
structure Kernel where
  processQueue : Kqueue Nat
  currentProcess : Nat
  registerBlock : Nat
  nextPid : Nat
  process : Nat → Option Process
  waitblock : Nat → Option Waitblock
  mmu : Mmu
  stores : List Store
  halted : Bool

def Kernel.modifyProcess (k : Kernel) (p : Nat) (f : Process → Process) : Option Kernel :=
  (k.process p).map fun proc => { k with process := Function.update k.process p (some (f proc)) }

def Kernel.modifyWaitblock (k : Kernel) (w : Nat) (f : Waitblock → Waitblock) : Option Kernel :=
  (k.waitblock w).map fun b => { k with waitblock := Function.update k.waitblock w (some (f b)) }

/-- `kqueue::push_back` on the process queue. -/
def Kernel.pushBack (k : Kernel) (p : Nat) : Kernel :=
  { k with processQueue := k.processQueue.pushBack p }

/-! ## Wait blocks -/

/-- `scheduler::get_process` over the rest of the queue. -/
def findProcess (k : Kernel) (pid : Nat) : List Nat → Option Nat
  | [] => some 0
  | p :: rest => do
    let proc ← k.process p
    if proc.pid = pid then some p else findProcess k pid rest

/-- `scheduler::get_process`: the process with this PID in the queue, or null. -/
def getProcess (k : Kernel) (pid : Nat) : Option Nat := findProcess k pid k.processQueue.elements

/-- The constructor of `waitblock`, at the address `this`. What the constructor does not
set, the object keeps from the memory it is made of. -/
def newWaitblock (k : Kernel) (this : Nat) (memory : Waitblock) (pid statusLoc caller : Nat) :
    Option Kernel :=
  let block : Waitblock := { memory with waitpid := pid, statusLoc, caller, active := true }
  let inactive : Waitblock := { block with active := false, terminatedPid := 0xffffffff }
  let put (b : Waitblock) : Kernel :=
    { k with waitblock := Function.update k.waitblock this (some b) }
  if pid = 0xffffffff ∨ pid = 0 then do
    let proc ← k.process caller
    if proc.children.length ≠ 0 then
      (put block).modifyProcess caller fun proc => { proc with childTerminationListener := this }
    else some (put inactive)
  else do
    let p ← getProcess k pid
    if p = 0 then some (put inactive)
    else
      (put block).modifyProcess p fun proc =>
        { proc with terminationListeners := proc.terminationListeners.pushFront (.waitblock this) }

/-- `waitblock::block_return`. It goes on behind the store to `*status_loc`, whether that aborts or
not. -/
def blockReturn (k : Kernel) (this : Nat) : Option Kernel := do
  let b ← k.waitblock this
  let k ← k.modifyProcess b.caller fun proc =>
    { proc with
      registers := { proc.registers with r := Function.update proc.registers.r 0 b.terminatedPid } }
  if b.statusLoc ≠ 0 then
    some { k with
      stores := k.stores ++ [⟨k.mmu.currentApplicationTable, b.statusLoc, b.exitCode⟩] }
  else some k

/-- `delete` on a wait block. -/
def deleteWaitblock (k : Kernel) (this : Nat) : Option Kernel := do
  let b ← k.waitblock this
  let k ←
    if b.waitpid = 0xffffffff ∨ b.waitpid = 0 then
      k.modifyProcess b.caller fun proc => { proc with childTerminationListener := 0 }
    else some k
  some { k with waitblock := Function.update k.waitblock this none }

/-- `waitblock::process_terminated`. -/
def Waitblock.processTerminated (b : Waitblock) (terminated : Process) : Waitblock :=
  { b with terminatedPid := terminated.pid, exitCode := terminated.exitCode, active := false }

/-! ## Processes -/

/-- `process::is_blocking`. -/
def isBlocking (k : Kernel) (this : Nat) : Option Bool := do
  let proc ← k.process this
  if proc.block = 0 then some false
  else do
    let b ← k.waitblock proc.block
    some b.active

/-- `process_terminated` of a listener of the process at `child`. -/
def processTerminated (k : Kernel) (child : Nat) (listener : Listener) : Option Kernel := do
  let terminated ← k.process child
  match listener with
  | .waitblock w => k.modifyWaitblock w (·.processTerminated terminated)
  | .process p => do
    let parent ← k.process p
    let k ←
      if parent.childTerminationListener ≠ 0 then
        k.modifyWaitblock parent.childTerminationListener (·.processTerminated terminated)
      else some k
    k.modifyProcess p fun parent => { parent with children := parent.children.remove child }

/-- `delete` on a process. -/
def deleteProcess (k : Kernel) (this : Nat) : Option Kernel := do
  let proc ← k.process this
  let k ← proc.terminationListeners.elements.foldlM (processTerminated · this ·) k
  some { k with process := Function.update k.process this none }

/-! ## System calls and the timer interrupt -/

/-- `store_context`: the registers of what was interrupted go to the register block. -/
def storeContext (k : Kernel) (registers : Registers) : Option Kernel :=
  if k.registerBlock = 0 then some k
  else k.modifyProcess k.registerBlock fun proc => { proc with registers }

/-- `scheduler::schedule`. -/
def schedule (k : Kernel) (p : Nat) : Kernel := k.pushBack p

/-- `scheduler::syscall_exit`, up to the wait for the next interrupt. -/
def syscallExit (k : Kernel) (retval : Nat) : Option Kernel := do
  let k ← k.modifyProcess k.currentProcess fun proc => { proc with exitCode := retval }
  let k ← deleteProcess k k.currentProcess
  some { k with currentProcess := 0, registerBlock := 0 }

/-- `scheduler::syscall_wait`, up to the wait for the next interrupt. -/
def syscallWait (k : Kernel) (pid statusLoc block : Nat) (memory : Waitblock) : Option Kernel := do
  let k ← newWaitblock k block memory pid statusLoc k.currentProcess
  let k ← k.modifyProcess k.currentProcess fun proc => { proc with block }
  let k := k.pushBack k.currentProcess
  some { k with currentProcess := 0, registerBlock := 0 }

/-- The end of a block that is no longer active, when its process is chosen to run. -/
def releaseBlock (k : Kernel) (p : Nat) : Option Kernel := do
  let proc ← k.process p
  if proc.block = 0 then some k
  else do
    let k ← blockReturn k proc.block
    let k ← deleteWaitblock k proc.block
    k.modifyProcess p fun proc => { proc with block := 0 }

/-- `scheduler::interrupt`. -/
def interrupt (virtualToPhysical : Nat → Nat) (k : Kernel) : Option Kernel :=
  let k := if k.currentProcess ≠ 0 then k.pushBack k.currentProcess else k
  match k.processQueue.popFront with
  | none => some { k with halted := true }
  | some (next, processQueue) => do
    let k := { k with processQueue, currentProcess := next }
    let proc ← k.process next
    let k := { k with
      mmu := setApplicationTable virtualToPhysical k.mmu proc.addrspace.table proc.addrspace.pid }
    if ← isBlocking k next then some { k.pushBack next with currentProcess := 0 }
    else do
      let k ← releaseBlock k next
      some { k with registerBlock := next }

/-- `scheduler::allocate_pid`, as many attempts as there are PIDs. -/
def allocatePid : Nat → Kernel → Option (Nat × Kernel)
  | 0, _ => none
  | fuel + 1, k => do
    let pid := k.nextPid
    let k := { k with nextPid := wrap (k.nextPid + 1) }
    let p ← getProcess k pid
    if p = 0 then some (pid, k) else allocatePid fuel k

end WagtailScheduler
