import Mathlib.Logic.Function.Basic
import Wagtail.Library.Word

/-!
# The kernel heap

`mm::allocate`, `mm::free` and the block operations under them, as `mm.cpp`
computes them. Addresses and sizes are 32-bit words; a null pointer is `0`. The
manager only ever reads memory through block headers, so memory is the map from
an address to the header stored there; the bytes inside the blocks are the
callers' and are not part of the state.
-/
namespace WagtailHeap

open Word (wrap sub)

/-- `utils::mask_left`: the instructions of the inline assembly, one by one.
A register shift by 32 or more clears the word, as it does here. -/
def maskLeft (bit : Nat) : Nat :=
  let v1 := Word.clz bit
  let v2 := Word.not 0
  let v1 := v1 + 1
  let v2 := v2 >>> v1
  Word.not v2

/-- `mm::block`: the header in front of the memory of a block. -/
structure Block where
  prev : Nat
  next : Nat
  size : Nat
  used : Bool
  deriving DecidableEq, Repr

/-- `sizeof(mm::block)`: three words and a padded flag. -/
abbrev sizeofBlock : Nat := 16

/-- `mm::KERNEL_HEAP_SIZE`. -/
abbrev kernelHeapSize : Nat := 4 * 1024 * 1024

/-- The static members of `mm` that the allocator uses, with the headers in memory. -/
structure Mm where
  firstBlock : Nat
  header : Nat → Block
  kernelDataEnd : Nat
  kernelDataspaceEnd : Nat
  initializationCompleted : Bool

/-- `block::get_address`. -/
def getAddress (block : Nat) : Nat := wrap (block + sizeofBlock)

def Mm.setPrev (m : Mm) (block prev : Nat) : Mm :=
  { m with header := Function.update m.header block { m.header block with prev } }

def Mm.setNext (m : Mm) (block next : Nat) : Mm :=
  { m with header := Function.update m.header block { m.header block with next } }

/-- `block::set_size`. -/
def Mm.setSize (m : Mm) (block size : Nat) : Mm :=
  { m with header := Function.update m.header block { m.header block with size } }

/-- `block::set_used`. -/
def Mm.setUsed (m : Mm) (block : Nat) (used : Bool) : Mm :=
  { m with header := Function.update m.header block { m.header block with used } }

/-- `block::split`: the block split off, or null with nothing changed when there is no room. -/
def split (m : Mm) (this offset : Nat) : Nat × Mm :=
  if sub (m.header this).size offset ≤ sizeofBlock then (0, m)
  else
    let newBlock := wrap (getAddress this + offset)
    let m := m.setNext newBlock (m.header this).next
    let m := m.setPrev newBlock this
    let m := m.setNext this newBlock
    let m := if (m.header newBlock).next ≠ 0 then m.setPrev (m.header newBlock).next newBlock else m
    let m := m.setUsed newBlock false
    let m := m.setSize newBlock (sub (m.header this).size (wrap (offset + sizeofBlock)))
    let m := m.setSize this
      (sub (m.header this).size (wrap ((m.header newBlock).size + sizeofBlock)))
    (newBlock, m)

/-- `block::is_contigouous`. -/
def isContiguous (m : Mm) (a b : Nat) : Bool :=
  (m.header a).next == b && (m.header b).prev == a

/-- `block::merge`: the merged block, or null with nothing changed. -/
def merge (m : Mm) (a b : Nat) : Nat × Mm :=
  if !isContiguous m a b then (0, m)
  else
    let m := m.setSize a (wrap ((m.header a).size + wrap ((m.header b).size + sizeofBlock)))
    let m := m.setNext a (m.header b).next
    let m := if (m.header b).next ≠ 0 then m.setPrev (m.header b).next a else m
    (a, m)

/-- The offset into the block needed for correct alignment. -/
def alignmentOffset (returnAddress alignment : Nat) : Nat :=
  sub (wrap (returnAddress + sub alignment 1) &&& maskLeft alignment) returnAddress

/-- Split off what the request leaves of a block, and mark the block. -/
def take (m : Mm) (block size : Nat) : Mm :=
  (if size < (m.header block).size then (split m block size).2 else m).setUsed block true

/-- How one round of the search loop ends. -/
inductive Round where
  | done (returnAddress : Nat) (m : Mm)
  | next (returnAddress : Nat)
  | nullBlock

/-- The body of the search loop. A round that does not serve the request may still have
set `returnAddress`. `nullBlock` is the call of `get_size` on a block that was expected
from `split` but is null. -/
def tryBlock (size alignment : Nat) (m : Mm) (returnAddress current : Nat) : Round :=
  if size ≤ (m.header current).size ∧ (m.header current).used = false then
    let returnAddress := getAddress current
    let offset := alignmentOffset returnAddress alignment
    if offset = 0 then .done (getAddress current) (take m current size)
    else if sizeofBlock < offset ∧ size ≤ sub (m.header current).size offset then
      let (splitBlock, m) := split m current (sub offset sizeofBlock)
      if splitBlock = 0 then .nullBlock
      else .done (getAddress splitBlock) (take m splitBlock size)
    else .next returnAddress
  else .next returnAddress

/-- More blocks than headers fit into the address space: a walk that is longer
runs in a circle and never returns. -/
def maxBlocks : Nat := 2 ^ 28

/-- The search loop of `mm::allocate` from `current` on, with `size` already rounded.
`none` stands for a call that does not return. -/
def allocateLoop (size alignment : Nat) (m : Mm) : Nat → Nat → Nat → Option (Nat × Mm)
  | 0, _, _ => none
  | fuel + 1, returnAddress, current =>
    match tryBlock size alignment m returnAddress current with
    | .done returnAddress m => some (returnAddress, m)
    | .nullBlock => none
    | .next returnAddress =>
      if (m.header current).next = 0 then some (returnAddress, m)
      else allocateLoop size alignment m fuel returnAddress (m.header current).next

/-- `mm::allocate`: the address handed out and the state after. -/
def allocate (m : Mm) (size alignment : Nat) : Option (Nat × Mm) :=
  if size = 0 then some (0, m)
  else
    let size := wrap (size + 3) &&& 0xfffffffc
    if !m.initializationCompleted then
      let returnAddress := m.kernelDataEnd
      let returnAddress :=
        if returnAddress &&& Word.not (maskLeft alignment) ≠ 0 then
          wrap (returnAddress + sub alignment 1) &&& maskLeft alignment
        else returnAddress
      some (returnAddress, { m with kernelDataEnd := wrap (returnAddress + size) })
    else allocateLoop size alignment m maxBlocks 0 m.firstBlock

/-- `mm::free`. `none` when `merge` refuses and its null result is dereferenced. -/
def free (m : Mm) (memoryBlock : Nat) : Option Mm :=
  if memoryBlock = 0 then some m
  else
    let current := sub memoryBlock sizeofBlock
    let m := m.setUsed current false
    let (current, m) :=
      if (m.header current).prev ≠ 0 ∧ (m.header (m.header current).prev).used = false then
        merge m (m.header current).prev current
      else (current, m)
    if current = 0 then none
    else if (m.header current).next ≠ 0 ∧ (m.header (m.header current).next).used = false then
      some (merge m current (m.header current).next).2
    else some m

/-- The part of `mm::initialize` that builds the first block. `m` is the state after the
heap pages have been mapped, so `kernelDataEnd` already lies behind the tables
allocated for them and `kernelDataspaceEnd` is still the end of the kernel data. -/
def initializeMm (m : Mm) : Mm :=
  let dataspaceEnd := wrap (m.kernelDataspaceEnd + 4095) &&& maskLeft 4096
  let mappingStart := wrap (dataspaceEnd + 4095) &&& maskLeft 4096
  let mappingEnd := wrap (mappingStart + kernelHeapSize) &&& maskLeft 4096
  let first : Block :=
    { prev := 0
      next := 0
      size := sub (sub mappingEnd m.kernelDataEnd) sizeofBlock
      used := false }
  { firstBlock := m.kernelDataEnd
    header := Function.update m.header m.kernelDataEnd first
    kernelDataEnd := m.kernelDataEnd
    kernelDataspaceEnd := mappingEnd
    initializationCompleted := true }

end WagtailHeap
