import Wagtail.Sd

/-!
# Block reads that wait

The callers of `post_read` in `device.cpp` and `sd.cpp`: each constructs an
operation, posts it, polls its status in `kthread::wait_for_io` and deletes it.
The threads that do so and the interrupt handler interleave between any two of
the steps below.
-/
namespace WagtailBlockDevice

open Word (wrap)
open WagtailSd

/-- The functions that issue a block read and wait for it. -/
inductive Request where
  | readBlock (destination address : Nat)
  | readBlocks (destination address length : Nat)
  | readPartitionTable (buffer : Nat)
  deriving DecidableEq, Repr

/-- The operation that the function constructs. -/
def Request.operation : Request → BlockReadOperation
  | .readBlock destination address => newBlockReadOperation destination 1 (wrap address) none
  | .readBlocks destination address length =>
    newBlockReadOperation destination length (wrap address) none
  | .readPartitionTable buffer => newBlockReadOperation buffer 1 0 none

/-- What a thread does next: the three statements of `sd::post_read`, the loop of
`kthread::wait_for_io`, and the `delete` behind it. -/
inductive Pc where
  | setQueued
  | enqueue
  | initiate
  | poll
  | delete
  | returned
  deriving DecidableEq, Repr

/-- The driver and, for every operation that has been constructed, its thread. -/
structure System where
  sd : Sd
  waiter : Nat → Option Pc

def System.initial : System := ⟨.initial, fun _ => none⟩

inductive Event where
  | issue (o : Nat) (request : Request)
  | advance (o : Nat)
  | poll (o : Nat) (stat : Status)
  | interrupt (irq status : Nat) (fifo : List Nat)

def System.goto (s : System) (o : Nat) (pc : Pc) (sd : Sd) : System :=
  ⟨sd, Function.update s.waiter o (some pc)⟩

/-- The condition of the loop in `kthread::wait_for_io`. -/
def Waiting (stat : Status) : Prop := stat = .queued ∨ stat = .incomplete
  deriving Decidable

/-- One step of a thread or of the interrupt handler. A poll of an operation that has been
deleted can read anything. -/
def step (s : System) : Event → Option System
  | .issue o request =>
    if o ≠ 0 ∧ s.waiter o = none then
      some (s.goto o .setQueued
        { s.sd with op := Function.update s.sd.op o (some request.operation) })
    else none
  | .advance o =>
    match s.waiter o with
    | some .setQueued => (setStatus s.sd o .queued).map (s.goto o .enqueue)
    | some .enqueue => some (s.goto o .initiate (enqueue s.sd o))
    | some .initiate => (initiateIfIdle s.sd).map (s.goto o .poll)
    | some .delete => some (s.goto o .returned (deleteOperation s.sd o))
    | _ => none
  | .poll o stat =>
    if s.waiter o = some .poll ∧ ∀ op ∈ s.sd.op o, op.stat = stat then
      some (s.goto o (if Waiting stat then .poll else .delete)
        { s.sd with accesses := s.sd.accesses ++ [.poll o stat] })
    else none
  | .interrupt irq status fifo =>
    (irqHandler s.sd irq status fifo).map fun sd => { s with sd }

def Step (s : System) (e : Event) (t : System) : Prop := step s e = some t

end WagtailBlockDevice
