import Wagtail.SchedulerContext

/-!
# Forking

`scheduler::syscall_fork` beside the other events. The source has the body of
`process::fork` in a comment, so what the call leaves behind is a parameter: a
new process, with or without the links to its parent that the comment makes.
-/
namespace WagtailScheduler

open Word (wrap)
open WagtailKqueue
open WagtailMmu

/-- `process::add_termination_listener`. -/
def Process.addTerminationListener (proc : Process) (listener : Listener) : Process :=
  { proc with terminationListeners := proc.terminationListeners.pushFront listener }

/-- The statements in the body of `process::fork` after the child has been constructed. -/
def linkChild (k : Kernel) (parent child : Nat) : Option Kernel := do
  let k ← k.modifyProcess child (·.addTerminationListener (.process parent))
  let k ← k.modifyProcess parent fun proc => { proc with children := proc.children.pushFront child }
  k.modifyProcess child fun proc =>
    { proc with registers := { proc.registers with r := Function.update proc.registers.r r0 0 } }

/-- `process::fork`: the child is constructed, and linked to its parent if the statements
are there. -/
def fork (k : Kernel) (parent child : Nat) (proc : Process) (linked : Bool) : Option Kernel :=
  let k := { k with process := Function.update k.process child (some proc) }
  if linked then linkChild k parent child else some k

/-- `scheduler::syscall_fork`, with the value that it returns. -/
def syscallFork (virtualToPhysical : Nat → Nat) (k : Kernel) (child : Nat) (proc : Process)
    (linked usable : Bool) (table : Nat) : Option (Kernel × Nat) := do
  let k ← fork k k.currentProcess child proc linked
  let parent ← k.process k.currentProcess
  let k := { k with mmu := setApplicationTable virtualToPhysical k.mmu table parent.pid }
  if usable then do
    let made ← k.process child
    some (k.pushBack child, made.pid)
  else do
    let k ← deleteProcess k child
    some (k, 0xffffffff)

/-- The events and forks, with the new process, whether it is linked and usable, and the
translation table of its parent. -/
inductive Action where
  | event (e : Event)
  | fork (registers : Registers) (child : Nat) (proc : Process) (linked usable : Bool)
    (table : Nat)

/-- No process notifies this address, so a new object can be made there. -/
def Unheard (k : Kernel) (p : Nat) : Prop :=
  ∀ q ∈ candidates k, ∀ proc ∈ k.process q, .process p ∉ proc.terminationListeners.elements

/-- No process in the queue has this PID: `scheduler::allocate_pid` has found it. -/
def UnusedPid (k : Kernel) (pid : Nat) : Prop :=
  ∀ q ∈ k.processQueue.elements, ∀ proc ∈ k.process q, proc.pid ≠ pid

def Action.Enabled (k : Kernel) : Action → Prop
  | .event e => e.Enabled k ∧ ∀ p proc, e = .schedule p proc → Unheard k p
  | .fork _ child proc _ _ _ => k.currentProcess ≠ 0 ∧ child ≠ 0 ∧ k.process child = none ∧
      proc.Constructed ∧ Unheard k child ∧ UnusedPid k proc.pid

def performAction (virtualToPhysical : Nat → Nat) (k : Kernel) : Action → Option Kernel
  | .event e => perform virtualToPhysical k e
  | .fork registers child proc linked usable table => do
    let k ← storeContext k registers
    let (k, _) ← syscallFork virtualToPhysical k child proc linked usable table
    some k

/-- A kernel that has not halted performs an enabled action. -/
def ForkStep (virtualToPhysical : Nat → Nat) (k : Kernel) (a : Action) (t : Kernel) : Prop :=
  k.halted = false ∧ a.Enabled k ∧ performAction virtualToPhysical k a = some t

theorem findProcess_zero {k : Kernel} {pid : Nat} {queue : List Nat}
    (h : findProcess k pid queue = some 0) (hnull : k.process 0 = none) :
    ∀ q ∈ queue, ∀ proc ∈ k.process q, proc.pid ≠ pid := by
  induction queue with
  | nil => simp
  | cons p rest ih =>
    cases hp : k.process p with
    | none => simp [findProcess, hp] at h
    | some first =>
      simp only [findProcess, hp, Option.bind_eq_bind, Option.bind_some] at h
      split_ifs at h with hpid
      · obtain rfl : p = 0 := Option.some.inj h
        rw [hnull] at hp
        cases hp
      · intro q hq proc hproc
        cases List.mem_cons.mp hq with
        | inl hq =>
          subst hq
          rw [hp] at hproc
          rwa [← Option.some.inj hproc]
        | inr hq => exact ih h q hq proc hproc

/-- The PIDs that `scheduler::allocate_pid` finds are unused. -/
theorem allocatePid_unused {k t : Kernel} {pid fuel : Nat} (hnull : k.process 0 = none)
    (h : allocatePid fuel k = some (pid, t)) :
    UnusedPid k pid ∧ t = { k with nextPid := t.nextPid } := by
  induction fuel generalizing k with
  | zero => cases h
  | succ fuel ih =>
    rw [allocatePid] at h
    obtain ⟨p, hp, h⟩ := Option.bind_eq_some_iff.mp h
    split_ifs at h with h0
    · obtain ⟨rfl, rfl⟩ := Prod.mk.inj (Option.some.inj h)
      subst h0
      exact ⟨@findProcess_zero { k with nextPid := wrap (k.nextPid + 1) } _ _ hp hnull, rfl⟩
    · exact @ih { k with nextPid := wrap (k.nextPid + 1) } hnull h

end WagtailScheduler
