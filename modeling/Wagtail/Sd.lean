import Mathlib.Logic.Function.Basic
import Wagtail.Kqueue
import Wagtail.Library.Word

/-!
# The SD card driver

Posting, starting and completing block reads as `sd.cpp` and `io_operation.cpp`
do it. Operations are objects in kernel memory and an address stands for one
allocation: reaching for an operation that has been deleted is a fault and the
function has no result. The controller is seen from the driver's side, as the
status and the data words that it reads and the register writes that it makes.
-/
namespace WagtailSd

open Word (wrap)
open WagtailKqueue

/-- `io_operation::status`. -/
inductive Status where
  | queued
  | incomplete
  | incompleteEnded
  | successful
  | failed
  deriving DecidableEq, Repr

/-- `block_read_operation`. A callback is known by the operations that it posts. -/
structure BlockReadOperation where
  destination : Nat
  blocks : Nat
  blocksRead : Nat
  address : Nat
  callback : Option (List Nat)
  stat : Status
  deriving DecidableEq, Repr

/-- The constructor of `block_read_operation`. -/
def newBlockReadOperation (destination blocks address : Nat) (callback : Option (List Nat)) :
    BlockReadOperation :=
  { destination, blocks, blocksRead := 0, address, callback, stat := .incomplete }

/-- A command as the card receives it. -/
structure Command where
  cmd : Nat
  arg : Nat
  deriving DecidableEq, Repr

/-- A data word stored for an operation. -/
structure Store where
  operation : Nat
  address : Nat
  value : Nat
  deriving DecidableEq, Repr

/-- What happens to an operation outside of the interrupt handler's own reads. -/
inductive Access where
  | poll (operation : Nat) (stat : Status)
  | delete (operation : Nat)
  deriving DecidableEq, Repr

def Access.operation : Access → Nat
  | .poll o _ => o
  | .delete o => o

/-- The driver, the operations it works on, and what it does to the card and to memory. -/
structure Sd where
  activeRead : Nat
  readAttempts : Nat
  readQueue : Kqueue Nat
  op : Nat → Option BlockReadOperation
  ie : Nat
  commands : List Command
  acknowledged : List Nat
  stores : List Store
  accesses : List Access

/-- The driver with no operation posted. -/
def Sd.initial : Sd :=
  { activeRead := 0, readAttempts := 0, readQueue := .empty, op := fun _ => none, ie := 0,
    commands := [], acknowledged := [], stores := [], accesses := [] }

/-! ## Registers -/

/-- Bits of the status, interrupt enable and command registers. -/
def cc : Nat := 0
def tc : Nat := 1
def brr : Nat := 5
def cto : Nat := 16
def dto : Nat := 20
def dcrc : Nat := 21
def deb : Nat := 22
def ddir : Nat := 4
def rspType : Nat := 16
def ccce : Nat := 19
def dp : Nat := 21
def indx : Nat := 24

/-- The word with these bits set. -/
def bits (positions : List Nat) : Nat := positions.foldl (fun word i => word ||| 1 <<< i) 0

/-- The command register for `READ_SINGLE_BLOCK`. -/
def cmd17 : Nat := 17 <<< indx ||| 0x2 <<< rspType ||| bits [dp, ccce, ddir]

/-- A write to the status register, which clears the bits that are set in `mask`. -/
def Sd.acknowledge (sd : Sd) (mask : Nat) : Sd :=
  { sd with acknowledged := sd.acknowledged ++ [mask] }

/-- `sd::send_cmd17`. -/
def sendCmd17 (sd : Sd) (address : Nat) : Sd :=
  { sd with
    ie := bits [cc, tc, cto, brr, dcrc, deb, dto]
    commands := sd.commands ++ [⟨cmd17, wrap address⟩] }

/-! ## Operations -/

def Sd.modifyOp (sd : Sd) (o : Nat) (f : BlockReadOperation → BlockReadOperation) : Option Sd :=
  (sd.op o).map fun op => { sd with op := Function.update sd.op o (some (f op)) }

/-- `io_operation::set_status`. -/
def setStatus (sd : Sd) (o : Nat) (stat : Status) : Option Sd :=
  sd.modifyOp o fun op => { op with stat }

/-- `block_read_operation::add_blocks_read`. -/
def addBlocksRead (sd : Sd) (o blocks : Nat) : Option Sd :=
  sd.modifyOp o fun op => { op with blocksRead := wrap (op.blocksRead + blocks) }

/-- `delete` on an operation. -/
def deleteOperation (sd : Sd) (o : Nat) : Sd :=
  { sd with op := Function.update sd.op o none, accesses := sd.accesses ++ [.delete o] }

/-- `sd::initiate_read`. -/
def initiateRead (sd : Sd) (o : Nat) : Option Sd := do
  let sd ← setStatus sd o .incomplete
  let op ← sd.op o
  some (sendCmd17 { sd with activeRead := o, readAttempts := 0 } op.address)

/-- `sd::initiate_next_read`. -/
def initiateNextRead (sd : Sd) : Option Sd :=
  match sd.readQueue.popFront with
  | none => some sd
  | some (next, readQueue) => initiateRead { sd with readQueue } next

/-- The `push_back` of `sd::post_read`. -/
def enqueue (sd : Sd) (o : Nat) : Sd := { sd with readQueue := sd.readQueue.pushBack o }

/-- The last statement of `sd::post_read`. -/
def initiateIfIdle (sd : Sd) : Option Sd :=
  if sd.activeRead = 0 then initiateNextRead sd else some sd

/-- `sd::post_read`. -/
def postRead (sd : Sd) (o : Nat) : Option Sd := do
  let sd ← setStatus sd o .queued
  initiateIfIdle (enqueue sd o)

/-- `io_operation::complete`: without a callback the operation deletes itself. -/
def complete (sd : Sd) (o : Nat) (stat : Status) : Option Sd := do
  let op ← sd.op o
  let sd ← setStatus sd o stat
  match op.callback with
  | some posts => posts.foldlM postRead sd
  | none => some (deleteOperation sd o)

/-! ## The interrupt handler -/

/-- The block size of the device. -/
def blockSize : Nat := 512

/-- The words read while the buffer has data, stored from word `i` of block number
`blocksRead` on. The destination is a pointer to words, so `get_block_size()` counts words. -/
def storeWords (o destination blocksRead : Nat) : Nat → List Nat → List Store
  | _, [] => []
  | i, word :: fifo =>
    ⟨o, wrap (destination + 4 * wrap (i + blocksRead * blockSize)), word⟩ ::
      storeWords o destination blocksRead (i + 1) fifo

/-- The buffer-ready branch of `sd::irq_handler`. -/
def bufferReadReady (sd : Sd) (fifo : List Nat) : Option Sd := do
  let op ← sd.op sd.activeRead
  let sd := { sd with
    stores := sd.stores ++ storeWords sd.activeRead op.destination op.blocksRead 0 fifo }
  let sd ← addBlocksRead sd sd.activeRead 1
  some (sd.acknowledge (bits [brr]))

/-- The transfer-complete branch of `sd::irq_handler`. -/
def transferComplete (sd : Sd) : Option Sd := do
  let op ← sd.op sd.activeRead
  if op.blocksRead < op.blocks then
    some ((sendCmd17 sd (wrap (op.address + op.blocksRead))).acknowledge (bits [tc]))
  else do
    let sd ← complete sd sd.activeRead .successful
    initiateNextRead ({ sd with activeRead := 0 }.acknowledge (bits [tc]))

/-- `sd::irq_handler`, with the status it reads and the words the data register then
delivers. -/
def irqHandler (sd : Sd) (irq status : Nat) (fifo : List Nat) : Option Sd :=
  if irq ≠ 83 then some sd
  else if sd.activeRead = 0 then some (sd.acknowledge 0xffffffff)
  else if status.testBit brr then bufferReadReady sd fifo
  else if status.testBit tc then transferComplete sd
  else if status.testBit cc then some (sd.acknowledge (bits [cc]))
  else some sd

end WagtailSd
