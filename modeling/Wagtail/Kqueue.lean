import Mathlib.Data.List.Basic

/-!
# Kernel queues

`kqueue` as the list that its nodes form, front first, with the length it keeps
on the side.
-/
namespace WagtailKqueue

variable {α : Type}

structure Kqueue (α : Type) where
  elements : List α
  length : Int
  deriving DecidableEq, Repr

def Kqueue.empty : Kqueue α := ⟨[], 0⟩

/-- `kqueue::push_front`. -/
def Kqueue.pushFront (q : Kqueue α) (data : α) : Kqueue α := ⟨data :: q.elements, q.length + 1⟩

/-- `kqueue::push_back`. -/
def Kqueue.pushBack (q : Kqueue α) (data : α) : Kqueue α := ⟨q.elements ++ [data], q.length + 1⟩

/-- `kqueue::pop_front`. -/
def Kqueue.popFront (q : Kqueue α) : Option (α × Kqueue α) :=
  match q.elements with
  | [] => none
  | data :: elements => some (data, ⟨elements, q.length - 1⟩)

/-- `kqueue::remove` at the first element that equals `data`: the node is linked out and
the length stays. -/
def Kqueue.remove [DecidableEq α] (q : Kqueue α) (data : α) : Kqueue α :=
  { q with elements := q.elements.erase data }

end WagtailKqueue
