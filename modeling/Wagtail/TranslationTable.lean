import Wagtail.Library.Word
import Wagtail.Mm
import Mathlib.Data.Fintype.Basic
import Mathlib.Logic.Function.Basic

/-!
# Translation tables

The two-level tables of `mmu`. A first-level entry holds the physical address
of a page table, whose virtual address is found in a directory. Page tables
come from the kernel heap: the address of the `n`-th one is `new n`, and
`translate` is what the MMU answers for a page of the kernel.
-/
namespace WagtailMmu

open WagtailMm (Mm)

/-- Memory access permissions, the kernel's before the user's. -/
inductive Permissions where
  | rwRw | rwRo | rwNa | roRo | roNa | naNa
  deriving DecidableEq, Repr

/-- Memory interval types. -/
inductive IntervalType where
  | code | data | rodata | stack | device
  deriving DecidableEq, Repr

namespace L1

def typePageTable : Nat := 0b01

end L1

namespace L2

def typeSmallPage : Nat := 0b10

namespace SmallPage

def ng : Nat := 1 <<< 11
def s : Nat := 1 <<< 10
def ap2 : Nat := 1 <<< 9
def tex2 : Nat := 1 <<< 8
def tex1 : Nat := 1 <<< 7
def tex0 : Nat := 1 <<< 6
def ap1 : Nat := 1 <<< 5
def ap0 : Nat := 1 <<< 4
def c : Nat := 1 <<< 3
def b : Nat := 1 <<< 2
def xn : Nat := 1 <<< 0

end SmallPage

end L2

/-! ## Page tables -/

section

open L2.SmallPage

/-- The attribute bits of a type of memory. -/
def IntervalType.bits : IntervalType → Nat
  | .code => tex2 ||| tex1 ||| c ||| s
  | .data => xn ||| tex2 ||| tex0 ||| b ||| s
  | .rodata => xn ||| tex2 ||| tex1 ||| tex0 ||| c ||| b ||| s
  | .stack => xn ||| tex2 ||| tex0 ||| b ||| s
  | .device => xn ||| b ||| s

/-- The bits of the access permissions. -/
def Permissions.bits : Permissions → Nat
  | .rwRw => ap1 ||| ap0
  | .rwRo => ap1
  | .rwNa => ap0
  | .roRo => ap2 ||| ap1 ||| ap0
  | .roNa => ap2 ||| ap0
  | .naNa => 0

/-- The entry that `page_table::add_entry` writes. -/
def pageEntry (physical : Nat) (permissions : Permissions) (type : IntervalType)
    (notGlobal : Bool) : Nat :=
  let entry := physical ||| L2.typeSmallPage
  let entry := if notGlobal then entry ||| ng else entry
  entry ||| type.bits ||| permissions.bits

end

abbrev PageTable := Fin 256 → Nat

/-- The constructor. -/
def PageTable.zeroed : PageTable := fun _ => 0

/-- `page_table::add_entry`. -/
def PageTable.addEntry (pt : PageTable) (offset : Fin 256) (physical : Nat)
    (permissions : Permissions) (type : IntervalType) (notGlobal : Bool) : PageTable :=
  Function.update pt offset (pageEntry physical permissions type notGlobal)

/-- `page_table::remove_entry`. -/
def PageTable.removeEntry (pt : PageTable) (offset : Fin 256) : Nat × PageTable :=
  (pt offset &&& 0xfffff000, Function.update pt offset 0)

/-- `page_table::is_empty`. -/
def PageTable.isEmpty (pt : PageTable) : Bool := decide (∀ i, pt i = 0)

/-! ## The kernel's memory -/

/-- What goes wrong: the heap has no memory for a page table, something that is not a page
table is used as one, an index is out of range. -/
inductive Fault where
  | allocation | access | range
  deriving DecidableEq, Repr

/-- The page tables by their physical addresses, of which `allocations` were made so far, and
the page allocator. -/
structure Memory where
  pageTables : Nat → Option PageTable
  allocations : Nat
  mm : Mm

/-- `mmu::virtual_to_physical`. -/
def virtualToPhysical (translate : Nat → Nat) (virt : Nat) : Nat :=
  (translate (virt &&& 0xfffff000) &&& 0xfffff000) + (virt &&& 0xfff)

section

variable (translate new : Nat → Nat)

/-- The page table at a virtual address. -/
def Memory.read (m : Memory) (pt : Nat) : Except Fault PageTable :=
  match m.pageTables (virtualToPhysical translate pt) with
  | some table => .ok table
  | none => .error .access

def Memory.write (m : Memory) (pt : Nat) (table : PageTable) : Memory :=
  { m with pageTables := Function.update m.pageTables (virtualToPhysical translate pt) table }

/-- `new (1024) page_table`. The heap does not hand out memory that is in use. -/
def Memory.newPageTable (m : Memory) : Except Fault (Nat × Memory) :=
  let pt := new m.allocations
  match m.pageTables (virtualToPhysical translate pt) with
  | some _ => .error .allocation
  | none => .ok (pt, { m.write translate pt .zeroed with allocations := m.allocations + 1 })

/-- `delete` of a page table. -/
def Memory.delete (m : Memory) (pt : Nat) : Memory :=
  { m with pageTables := Function.update m.pageTables (virtualToPhysical translate pt) none }

end

/-! ## Translation tables -/

/-- `rbtree`, which is never pruned, as the pairs in the order of their insertion. -/
abbrev Rbtree := List (Nat × Nat)

def Rbtree.insert (t : Rbtree) (key data : Nat) : Rbtree := t ++ [(key, data)]

def Rbtree.getValue (t : Rbtree) (key : Nat) : Option Nat := List.lookup key t

structure TranslationTable (entries : Nat) where
  table : Fin entries → Nat
  directory : Rbtree

variable {entries : Nat}

/-- A new table, after `clear`. -/
def TranslationTable.cleared : TranslationTable entries := ⟨fun _ => 0, []⟩

/-- The virtual address of the page table of an entry. -/
def TranslationTable.pageTable (t : TranslationTable entries) (index : Fin entries) : Nat :=
  let ptPhysical := t.table index &&& 0xfffffc00
  (t.directory.getValue ptPhysical).getD ptPhysical

/-- The index of a virtual address in the page table. -/
def ptIndex (virt : Nat) : Fin 256 :=
  ⟨(virt &&& 0x000fffff) >>> 12, by
    have h : virt &&& 0x000fffff < 2 ^ 20 := Nat.and_lt_two_pow _ (by decide)
    rw [Nat.shiftRight_eq_div_pow]
    omega⟩

variable (translate new : Nat → Nat)

/-- `translation_table::map_page`. -/
def mapPage (m : Memory) (t : TranslationTable entries) (page virt : Nat)
    (permissions : Permissions) (type : IntervalType) (notGlobal : Bool) :
    Except Fault (Memory × TranslationTable entries) :=
  if h : virt >>> 20 < entries then do
    let tableIndex : Fin entries := ⟨virt >>> 20, h⟩
    let (m, t, pt) ←
      if t.table tableIndex &&& L1.typePageTable ≠ 0 then
        Except.ok (m, t, t.pageTable tableIndex)
      else do
        let (pt, m) ← m.newPageTable translate new
        let physical := virtualToPhysical translate pt
        let t := { t with
          directory := t.directory.insert physical pt
          table := Function.update t.table tableIndex (physical ||| L1.typePageTable) }
        Except.ok (m, t, pt)
    let table ← m.read translate pt
    Except.ok (m.write translate pt
      (table.addEntry (ptIndex virt) page permissions type notGlobal), t)
  else .error .range

/-- `translation_table::unmap_page`. -/
def unmapPage (m : Memory) (t : TranslationTable entries) (page : Nat) :
    Except Fault (Memory × TranslationTable entries) :=
  if h : page >>> 20 < entries then
    let tableIndex : Fin entries := ⟨page >>> 20, h⟩
    if t.table tableIndex &&& L1.typePageTable = 0 then .ok (m, t)
    else do
      let pt := t.pageTable tableIndex
      let table ← m.read translate pt
      let (freedPage, table) := table.removeEntry (ptIndex page)
      let m := m.write translate pt table
      let m := if freedPage ≠ 0 then { m with mm := m.mm.freePage freedPage } else m
      if table.isEmpty then
        Except.ok (m.delete translate pt,
          { t with table := Function.update t.table tableIndex 0 })
      else Except.ok (m, t)
  else .error .range

/-- `translation_table::unmap_interval`. -/
def unmapInterval (m : Memory) (t : TranslationTable entries) (start last : Nat) :
    Except Fault (Memory × TranslationTable entries) :=
  ((List.range ((last - start + 4095) / 4096)).map fun i => start + 4096 * i).foldlM
    (fun s address => unmapPage translate s.1 s.2 address) (m, t)

/-! ## The walk of the MMU -/

/-- The page table entry for a virtual address. -/
def descriptor (m : Memory) (t : TranslationTable entries) (virt : Nat) : Option Nat :=
  if h : virt >>> 20 < entries then
    let entry := t.table ⟨virt >>> 20, h⟩
    if entry &&& 0b11 = L1.typePageTable then
      (m.pageTables (entry &&& 0xfffffc00)).bind fun pt =>
        let entry := pt (ptIndex virt)
        if entry &&& L2.typeSmallPage ≠ 0 then some entry else none
    else none
  else none

/-- The physical page for a virtual address. -/
def walk (m : Memory) (t : TranslationTable entries) (virt : Nat) : Option Nat :=
  (descriptor m t virt).map fun entry => entry &&& 0xfffff000

end WagtailMmu
