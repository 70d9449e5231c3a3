import Wagtail.Heap
import Wagtail.Scheduler
import Wagtail.TranslationTable

/-!
# Processes and their address spaces

The constructors of `process` and its destructor. Translation tables are objects
in kernel memory, and user memory is reached through the one that is active. A
store to an address that is not mapped aborts, and the constructor goes on behind
it; what a load that aborts leaves in its register is not modelled.
-/
namespace WagtailProcess

open Word (wrap sub)
open WagtailHeap (maskLeft)
open WagtailMm (Mm)
open WagtailMmu
open WagtailScheduler (Registers sp)

/-- The members of the header of an executable that the constructor reads. -/
structure Header where
  dataStart : Nat
  bssStart : Nat
  applicationEnd : Nat
  deriving DecidableEq, Repr

structure Process where
  pid : Nat
  translationTable : Nat
  programBreak : Nat
  registers : Registers
  codePages : Nat
  dataPages : Nat
  stackPages : Nat
  usable : Bool

def defaultStackSize : Nat := 16 * 1024

/-- The translation tables by their addresses, the memory for page tables and the page allocator,
the bytes of physical memory, the registers of the MMU, and the addresses of user memory at which
stores have aborted, as `data_abort` reports them. -/
structure World where
  tables : Nat → TranslationTable 2048
  memory : Memory
  bytes : Nat → Nat
  mmu : Mmu
  dataAborts : List Nat

/-- `register_contents::register_contents`. -/
def newRegisters : Registers := ⟨fun _ => 0, 1 <<< 5 ||| 0b10000, 0x1004⟩

/-- `register_contents::register_contents` of a copy. -/
def copyRegisters (copy : Registers) : Registers :=
  ⟨fun i => copy.r i, copy.spsr, copy.returnAddress⟩

/-- The common constructor, with the translation table that the heap has memory for. -/
def newProcess (w : World) (table pid : Nat) : World × Process :=
  ({ w with tables := Function.update w.tables table .cleared },
    { pid := pid
      translationTable := table
      programBreak := 0
      registers := newRegisters
      codePages := 0
      dataPages := 0
      stackPages := 0
      usable := false })

/-! ## Address spaces -/

/-- A page that is allocated and mapped. -/
structure Request where
  address : Nat
  permissions : Permissions
  type : IntervalType

/-- The code section. -/
def codeRequests (codePages : Nat) : List Request :=
  (List.range codePages).map fun i => ⟨wrap (0x1000 + 4096 * i), .rwRo, .code⟩

/-- The data section, behind the code. -/
def dataRequests (codePages dataPages : Nat) : List Request :=
  (List.range dataPages).map fun i => ⟨wrap (0x1000 + 4096 * (codePages + i)), .rwRw, .data⟩

/-- The stack, from the highest page down. -/
def stackRequests (stackPages : Nat) : List Request :=
  (List.range stackPages).map fun i =>
    ⟨sub (0x80000000 - 4096) (wrap (4096 * i)), .rwRw, .stack⟩

variable (translate new : Nat → Nat)

/-- One round of the loops of `process::setup_addrspace`. -/
def mapNew (table : Nat) (w : World) (r : Request) : Except Fault World :=
  let (page, mm) := w.memory.mm.allocatePage
  do
    let (memory, t) ← mapPage translate new { w.memory with mm := mm } (w.tables table) page
      r.address r.permissions r.type false
    Except.ok { w with memory := memory, tables := Function.update w.tables table t }

/-- `process::setup_addrspace`. -/
def setupAddrspace (w : World) (proc : Process) : Except Fault (World × Process) := do
  let mapAll := List.foldlM (mapNew translate new proc.translationTable)
  let w ← mapAll w (codeRequests proc.codePages)
  let w ← mapAll w (dataRequests proc.codePages proc.dataPages)
  let w ← mapAll w (stackRequests proc.stackPages)
  Except.ok (w, { proc with
    programBreak := wrap (0x1000 + proc.codePages * 0x1000 + proc.dataPages * 0x1000) })

/-! ## User memory -/

/-- `mmu::set_application_table`. -/
def World.setApplicationTable (w : World) (table pid : Nat) : World :=
  { w with mmu := WagtailMmu.setApplicationTable (virtualToPhysical translate) w.mmu table pid }

/-- The physical address of a user address. -/
def World.physical (w : World) (virt : Nat) : Except Fault Nat :=
  match walk w.memory (w.tables w.mmu.currentApplicationTable) virt with
  | some page => .ok (page + virt % 4096)
  | none => .error .access

def World.load (w : World) (virt : Nat) : Except Fault Nat := do
  let physical ← w.physical virt
  Except.ok (w.bytes physical)

/-- A store that aborts: `data_abort` reports its address, and the kernel goes on behind it. From
0x80000000 on there are objects of the kernel, and what a store does to them is not followed. -/
def World.abortStore (w : World) (virt : Nat) : Except Fault World :=
  if virt < 0x80000000 then .ok { w with dataAborts := w.dataAborts ++ [virt] }
  else .error .access

def World.store (w : World) (virt byte : Nat) : Except Fault World :=
  match w.physical virt with
  | .ok physical => .ok { w with bytes := Function.update w.bytes physical byte }
  | .error _ => w.abortStore virt

/-- The loop that fills a buffer from user memory. -/
def World.loadBuffer (w : World) (virt count : Nat) (buffer : Nat → Nat) :
    Except Fault (Nat → Nat) :=
  (List.range count).foldlM (fun buffer i => do
    let byte ← w.load (wrap (virt + i))
    Except.ok (Function.update buffer i byte)) buffer

/-- The loop that copies a buffer to user memory. -/
def World.storeBuffer (w : World) (virt count : Nat) (buffer : Nat → Nat) : Except Fault World :=
  (List.range count).foldlM (fun w i => w.store (wrap (virt + i)) (buffer i)) w

/-! ## Constructors -/

/-- The numbers of pages for an executable. -/
def Header.codePages (h : Header) : Nat := sub h.dataStart 0x1000 >>> 12

def Header.dataPages (h : Header) : Nat :=
  sub (sub (wrap (h.applicationEnd + 4095) &&& maskLeft 4096) (wrap (h.codePages <<< 12))) 0x1000
    >>> 12

def stackPagesDefault : Nat := defaultStackSize >>> 12

/-- `process::process(char *)`. -/
def processFromBuffer (w : World) (table pid : Nat) (header : Header) (buffer : Nat → Nat) :
    Except Fault (World × Process) := do
  let (w, proc) := newProcess w table pid
  let proc := { proc with
    codePages := header.codePages
    dataPages := header.dataPages
    stackPages := stackPagesDefault }
  let (w, proc) ← setupAddrspace translate new w proc
  let proc := { proc with registers := { proc.registers with
    r := Function.update proc.registers.r sp 0x80000000 } }
  let w := w.setApplicationTable translate proc.translationTable proc.pid
  let w ← w.storeBuffer 0x1000 (sub header.dataStart 0x1000) buffer
  let w ← w.storeBuffer (wrap (0x1000 + proc.codePages * 0x1000))
    (sub header.bssStart header.dataStart) fun i => buffer (i + proc.codePages * 0x1000)
  Except.ok (w, { proc with usable := true })

/-- One round of the loops that copy the address space of the parent page by page. -/
def copyPage (parent child : Process) (s : World × (Nat → Nat)) (address : Nat) :
    Except Fault (World × (Nat → Nat)) := do
  let (w, buffer) := s
  let w := w.setApplicationTable translate parent.translationTable parent.pid
  let buffer ← w.loadBuffer address 4096 buffer
  let w := w.setApplicationTable translate child.translationTable child.pid
  let w ← w.storeBuffer address 4096 buffer
  Except.ok (w, buffer)

/-- `process::process(process *)`. The bytes of the new kernel buffer are not read before they
are written. -/
def processFromParent (w : World) (table pid : Nat) (parent : Process) :
    Except Fault (World × Process) := do
  let (w, proc) := newProcess w table pid
  let proc := { proc with
    registers := copyRegisters parent.registers
    codePages := parent.codePages
    dataPages := parent.dataPages
    stackPages := parent.stackPages }
  let (w, proc) ← setupAddrspace translate new w proc
  let copyAll := List.foldlM (copyPage translate parent proc)
  let s ← copyAll (w, fun _ => 0) ((List.range (proc.codePages + proc.dataPages)).map fun i =>
    wrap (0x1000 + 4096 * i))
  let s ← copyAll s ((List.range proc.stackPages).map fun i =>
    wrap (sub 0x80000000 (wrap (proc.stackPages * 4096)) + 4096 * i))
  Except.ok (s.1, { proc with usable := true })

/-! ## Destructor -/

/-- `translation_table::unmap_interval` of a table in kernel memory. -/
def World.unmapInterval (w : World) (table start last : Nat) : Except Fault World := do
  let (memory, t) ← WagtailMmu.unmapInterval translate w.memory (w.tables table) start last
  Except.ok { w with memory := memory, tables := Function.update w.tables table t }

/-- The part of `process::~process` that returns the memory of the process. -/
def destroyProcess (w : World) (proc : Process) : Except Fault World := do
  let w ←
    if proc.codePages > 0 then
      w.unmapInterval translate proc.translationTable 0x1000 proc.programBreak
    else Except.ok w
  if proc.stackPages > 0 then
    w.unmapInterval translate proc.translationTable (0x80000000 - defaultStackSize) 0x80000000
  else Except.ok w

end WagtailProcess
