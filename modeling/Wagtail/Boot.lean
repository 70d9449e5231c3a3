import Wagtail.Heap
import Wagtail.TranslationTable

/-!
# Starting the memory manager

`mmu::initialize`, the switch to the MMU, and `mm::initialize` up to the point
where the heap is ready. Until then `mm::allocate` hands out the memory behind
the kernel's data, also for the page tables that map this memory. The state has
a trace of what is handed out and which pages are mapped.
-/
namespace WagtailBoot

open Word (wrap)
open WagtailHeap (allocate maskLeft kernelHeapSize initializeMm)
open WagtailMmu

/-- Memory is handed out, from an address up to another; a page of the kernel gets an entry; the
MMU is enabled. -/
inductive Event where
  | allocated (start last : Nat)
  | mapped (virt page : Nat) (permissions : Permissions) (type : IntervalType)
  | mmuEnabled
  deriving DecidableEq, Repr

/-- The static members of `mm` and `mmu`, and what has happened. -/
structure Boot where
  mm : WagtailHeap.Mm
  kernelTable : TranslationTable 4096
  nextDeviceAddr : Nat
  trace : List Event

def Boot.record (s : Boot) (e : Event) : Boot := { s with trace := s.trace ++ [e] }

/-- `sizeof(rbtree::node)` of a directory: two words, the padded color and three pointers. -/
def sizeofNode : Nat := 24

/-- `operator new` before the heap is ready: what lies below the moved end of the kernel's data
is zeroed and handed out. -/
def Boot.new (s : Boot) (size alignment : Nat) : Option (Nat × Boot) := do
  let (address, mm) ← allocate s.mm size alignment
  some (address, { s with mm, trace := s.trace ++ [.allocated address mm.kernelDataEnd] })

section

variable (translate : Nat → Nat)

/-- `translation_table::map_page` of the kernel's table. The entry that `add_entry` writes to the
page table is in the trace. -/
def mapPage (s : Boot) (page virt : Nat) (permissions : Permissions) (type : IntervalType) :
    Option Boot :=
  if h : virt >>> 20 < 4096 then do
    let tableIndex : Fin 4096 := ⟨virt >>> 20, h⟩
    let s ←
      if s.kernelTable.table tableIndex &&& L1.typePageTable ≠ 0 then some s
      else do
        let (pt, s) ← s.new 1024 1024
        let physical := virtualToPhysical translate pt
        -- The node that the directory inserts.
        let (_, s) ← s.new sizeofNode 4
        some { s with kernelTable :=
          { directory := s.kernelTable.directory.insert physical pt
            table := Function.update s.kernelTable.table tableIndex
              (physical ||| L1.typePageTable) } }
    some (s.record (.mapped virt page permissions type))
  else none

/-- `translation_table::map_interval`. -/
def mapInterval (s : Boot) (start last virt : Nat) (permissions : Permissions)
    (type : IntervalType) : Option Boot :=
  (List.range ((last - start + 4095) / 4096)).foldlM
    (fun s i => mapPage translate s (start + 4096 * i) (wrap (virt + 4096 * i)) permissions type) s

/-! ## Initialization -/

/-- `text_start`. -/
def textStart : Nat := 0x81000000

/-- What `wagtail.ld` makes of an image: its data starts on a page behind the text, and its end
is rounded up to a word. The bound leaves room in the address space for the page tables of the
image and for the heap. -/
structure Layout where
  dataStart : Nat
  bssEnd : Nat
  text_le : textStart ≤ dataStart
  data_le : dataStart ≤ bssEnd
  data_aligned : dataStart % 4096 = 0
  bss_aligned : bssEnd % 4 = 0
  fits : bssEnd ≤ 0xff000000

def Layout.dataEnd (l : Layout) : Nat := (l.bssEnd + 4095) / 4096 * 4096

/-- The static members before anything runs. -/
def Layout.start (l : Layout) : Boot where
  mm :=
    { firstBlock := 0
      header := fun _ => ⟨0, 0, 0, false⟩
      kernelDataEnd := l.bssEnd
      kernelDataspaceEnd := l.dataEnd
      initializationCompleted := false }
  kernelTable := .cleared
  nextDeviceAddr := 0xc0000000
  trace := []

/-- The loop at the end of `mmu::initialize`, which maps the dataspace that the page tables have
taken. `none` stands for more rounds than there are pages. -/
def mapDataspace : Nat → Boot → Option Boot
  | 0, _ => none
  | fuel + 1, s =>
    if s.mm.kernelDataspaceEnd ≤ s.mm.kernelDataEnd then do
      let s ← mapPage translate s s.mm.kernelDataspaceEnd s.mm.kernelDataspaceEnd .rwNa .data
      mapDataspace fuel { s with mm :=
        { s.mm with kernelDataspaceEnd := wrap (s.mm.kernelDataspaceEnd + 4096) } }
    else some s

def maxPages : Nat := 2 ^ 20

/-- `mmu::initialize`. -/
def mmuInitialize (l : Layout) (s : Boot) : Option Boot := do
  let stackStartPhysical := 0x80000000
  let stackEndPhysical := 0x80008000
  let stackVirtual := 0xa0000000 - 0x8000
  let s ← mapInterval translate s textStart l.dataStart textStart .roNa .code
  let s ← mapInterval translate s l.dataStart l.dataEnd l.dataStart .rwNa .data
  let s ← mapInterval translate s stackStartPhysical stackEndPhysical stackVirtual .rwNa .stack
  mapDataspace translate maxPages s

/-- `mmu::map_device`: the virtual address of the device. -/
def mapDevice (s : Boot) (base size : Nat) : Option (Nat × Boot) := do
  let address := s.nextDeviceAddr
  let s ← mapInterval translate s base (wrap (base + size)) address .rwNa .device
  some (address, { s with nextDeviceAddr := wrap (s.nextDeviceAddr + size) })

/-- `mm::sdrc_physical`. -/
def sdrcPhysical : Nat := 0x6d000000

/-- `mm::initialize`, up to the first block of the heap. -/
def mmInitialize (s : Boot) : Option Boot := do
  let (_, s) ← mapDevice translate s sdrcPhysical (64 * 1024)
  let dataspaceEnd := wrap (s.mm.kernelDataspaceEnd + 4095) &&& maskLeft 4096
  let mappingStart := wrap (dataspaceEnd + 4095) &&& maskLeft 4096
  let mappingEnd := wrap (mappingStart + kernelHeapSize) &&& maskLeft 4096
  let s ← mapInterval translate s mappingStart mappingEnd dataspaceEnd .rwNa .data
  some { s with mm := initializeMm s.mm }

/-- The kernel starts. -/
def boot (l : Layout) : Option Boot := do
  let s ← mmuInitialize translate l l.start
  mmInitialize translate (s.record .mmuEnabled)

end

/-! ## What may be handed out -/

/-- The end of the kernel's data space after these events: from the start of the data on, the
pages of data are mapped one after the other. -/
def mappedEnd (dataStart : Nat) (trace : List Event) : Nat :=
  trace.foldl (fun last e =>
    match e with
    | .mapped virt _ _ .data => if virt = last then last + 4096 else last
    | _ => last) dataStart

/-- Every byte that is handed out once the MMU is enabled lies below the end of the data space
that is mapped at that moment. -/
def HandsOutMapped (dataStart : Nat) (trace : List Event) : Prop :=
  ∀ before start last after, trace = before ++ .allocated start last :: after →
    .mmuEnabled ∈ before → ∀ address, start ≤ address → address < last →
      address < mappedEnd dataStart before

end WagtailBoot
