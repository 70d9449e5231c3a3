import Mathlib.Data.List.Basic

/-!
# The page allocator

`mm` hands out the pages on a stack of preallocated space that its
initialisation fills.
-/
namespace WagtailMm

/-- `static_kstack`: the elements, top first, in space for `capacity` of them. -/
structure StaticKstack where
  capacity : Nat
  elements : List Nat
  deriving DecidableEq, Repr

/-- `static_kstack::push`. There is no check of the capacity. -/
def StaticKstack.push (s : StaticKstack) (data : Nat) : StaticKstack :=
  { s with elements := data :: s.elements }

/-- `static_kstack::is_empty`. -/
def StaticKstack.isEmpty (s : StaticKstack) : Bool := s.elements.isEmpty

/-- `static_kstack::pop`, of a stack that is not empty. -/
def StaticKstack.pop (s : StaticKstack) : Nat × StaticKstack :=
  (s.elements.headD 0, { s with elements := s.elements.tail })

/-- The members of `mm` that the page allocator uses. -/
structure Mm where
  pageStackInitialized : Bool
  kernelDataspaceEnd : Nat
  pageStack : StaticKstack
  deriving DecidableEq, Repr

/-- `mm::allocate_page`. -/
def Mm.allocatePage (mm : Mm) : Nat × Mm :=
  if !mm.pageStackInitialized then (mm.kernelDataspaceEnd, mm)
  else if !mm.pageStack.isEmpty then
    let (page, pageStack) := mm.pageStack.pop
    (page, { mm with pageStack := pageStack })
  else (0, mm)

/-- `mm::free_page`. -/
def Mm.freePage (mm : Mm) (page : Nat) : Mm := { mm with pageStack := mm.pageStack.push page }

/-- The part of `mm::initialize` that makes the page stack and fills it. -/
def initializePageStack (ramstart ramsize kernelDataspaceEnd : Nat) : Mm :=
  let numPages := ramsize / 4096 - (kernelDataspaceEnd - ramstart) / 4096
  let pushed := (ramstart + ramsize - kernelDataspaceEnd + 4095) / 4096
  { pageStackInitialized := true
    kernelDataspaceEnd := kernelDataspaceEnd
    pageStack := (List.range pushed).foldl
      (fun s i => s.push (kernelDataspaceEnd + 4096 * i)) ⟨numPages, []⟩ }

end WagtailMm
