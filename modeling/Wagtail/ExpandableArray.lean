import Wagtail.Library.Runs
import Wagtail.Library.Word

/-!
# Expandable arrays

`expandable_array` with the storage it has allocated. New storage holds whatever
the memory held before, as `new` of a built-in type does. Capacities and indices are
`int` in the source.
-/
namespace WagtailExpandableArray

open Word (signed signed_of_range)

/-- What goes wrong: an element outside of the storage is reached for, or there is no memory. -/
inductive Fault where
  | outside
  | memory
  deriving DecidableEq, Repr

variable {α : Type}

structure ExpandableArray (α : Type) where
  capacity : Int
  expandAmount : Int
  array : List α
  deriving DecidableEq, Repr

/-- The elements of four bytes that the address space has room for. The heap of the kernel ends
long before, whatever the elements are. -/
def maxElements : Int := 0x40000000

/-- `new T[n]`. -/
def newStorage (memory : Nat → α) (n : Int) : Except Fault (List α) :=
  if 0 ≤ n ∧ n < maxElements then .ok ((List.range n.toNat).map memory) else .error .memory

/-- The constructor. The capacity is initialised with itself. -/
def newExpandableArray (capacity : Int) (memory : Nat → α) (initialCapacity expand : Int) :
    Except Fault (ExpandableArray α) := do
  let array ← newStorage memory initialCapacity
  Except.ok { capacity, expandAmount := expand, array }

/-- `expandable_array::expand`, which copies as many elements as the old capacity says. -/
def ExpandableArray.expand (a : ExpandableArray α) (memory : Nat → α) (newCapacity : Int) :
    Except Fault (ExpandableArray α) := do
  let newCapacity := if newCapacity = -1 then signed (a.capacity + a.expandAmount) else newCapacity
  let newArray ← newStorage memory newCapacity
  if a.capacity ≤ a.array.length ∧ a.capacity ≤ newCapacity then
    let copied := a.capacity.toNat
    Except.ok { a with
      capacity := newCapacity
      array := a.array.take copied ++ newArray.drop copied }
  else .error .outside

/-- The element at an index of the storage. -/
def ExpandableArray.element (a : ExpandableArray α) (index : Int) : Except Fault α :=
  if 0 ≤ index then
    match a.array[index.toNat]? with
    | some x => .ok x
    | none => .error .outside
  else .error .outside

/-- The expansion that `get` starts with. -/
def ExpandableArray.reserve (a : ExpandableArray α) (memory : Nat → α) (index : Int) :
    Except Fault (ExpandableArray α) :=
  if index ≥ a.capacity ∧ index < signed (a.capacity + a.expandAmount) then a.expand memory (-1)
  else if index ≥ a.capacity then a.expand memory index
  else .ok a

/-- `expandable_array::get`, read. -/
def ExpandableArray.get (a : ExpandableArray α) (memory : Nat → α) (index : Int) :
    Except Fault (α × ExpandableArray α) := do
  let a ← a.reserve memory index
  let x ← a.element index
  Except.ok (x, a)

/-- An assignment to the reference that `expandable_array::get` returns. -/
def ExpandableArray.assign (a : ExpandableArray α) (memory : Nat → α) (index : Int) (x : α) :
    Except Fault (ExpandableArray α) := do
  let a ← a.reserve memory index
  let _ ← a.element index
  Except.ok { a with array := a.array.set index.toNat x }

/-! ## Arrays whose capacity is that of their storage -/

/-- The capacity is the number of elements, and the array grows one by one. -/
structure ExpandableArray.Exact (a : ExpandableArray α) : Prop where
  capacity : a.capacity = a.array.length
  expandAmount : a.expandAmount = 1
  room : a.capacity < maxElements

variable {a : ExpandableArray α} {i : Nat} {x : α}

theorem element_of_get (hi : a.array[i]? = some x) : a.element i = .ok x := by
  simp [ExpandableArray.element, hi]

/-- Below the capacity nothing is expanded. -/
theorem reserve_of_lt (memory : Nat → α) (hi : (i : Int) < a.capacity) :
    a.reserve memory i = .ok a := by
  have hlt : ¬ (i : Int) ≥ a.capacity := by omega
  simp [ExpandableArray.reserve, hlt]

theorem ExpandableArray.Exact.reserve_below (h : a.Exact) (memory : Nat → α)
    (hi : i < a.array.length) :
    a.reserve memory i = .ok a := by
  refine reserve_of_lt memory ?_
  rw [h.capacity]
  omega

/-- The storage after an expansion by one element. -/
def ExpandableArray.extended (a : ExpandableArray α) (memory : Nat → α) : ExpandableArray α :=
  { a with capacity := a.array.length + 1, array := a.array ++ [memory a.array.length] }

/-- At the capacity the array gets one more element, unless memory has run out. -/
theorem ExpandableArray.Exact.reserve_at (h : a.Exact) (memory : Nat → α) :
    a.reserve memory a.array.length = .error .memory ∨
      a.reserve memory a.array.length = .ok (a.extended memory) ∧ (a.extended memory).Exact := by
  have hshort : a.array.length < 0x40000000 := by
    have hroom := h.room
    rw [h.capacity, maxElements] at hroom
    omega
  have hsum : signed (a.capacity + a.expandAmount) = a.array.length + 1 := by
    rw [h.capacity, h.expandAmount]
    exact signed_of_range (by omega) (by omega)
  have hgrow : a.reserve memory a.array.length = a.expand memory (-1) := by
    rw [ExpandableArray.reserve, if_pos]
    rw [hsum, h.capacity]
    omega
  rw [hgrow, ExpandableArray.expand]
  simp only [if_true, hsum, newStorage]
  simp only [h.capacity]
  by_cases hroom : 0 ≤ (a.array.length : Int) + 1 ∧ (a.array.length : Int) + 1 < maxElements
  · right
    have hcopy : (a.array.length : Int) ≤ a.array.length ∧
        (a.array.length : Int) ≤ a.array.length + 1 := by omega
    rw [if_pos hroom, Runs.bind_of_ok rfl, if_pos hcopy]
    have hrange : ((a.array.length : Int) + 1).toNat = a.array.length + 1 := by omega
    refine ⟨?_, by simp [ExpandableArray.extended], h.expandAmount, hroom.2⟩
    simp [hrange, List.range_succ, ExpandableArray.extended, h.expandAmount]
  · left
    rw [if_neg hroom]
    rfl

/-- A read below the capacity. -/
theorem ExpandableArray.Exact.get (h : a.Exact) (memory : Nat → α) (hi : a.array[i]? = some x) :
    a.get memory i = .ok (x, a) := by
  obtain ⟨hlt, -⟩ := List.getElem?_eq_some_iff.mp hi
  rw [ExpandableArray.get, h.reserve_below memory hlt, Runs.bind_of_ok rfl,
    Runs.bind_of_ok (element_of_get hi)]

/-- An assignment up to the capacity changes one element, unless memory has run out. -/
theorem ExpandableArray.Exact.assign (h : a.Exact) (memory : Nat → α) (x : α)
    (hi : i ≤ a.array.length) :
    a.assign memory i x = .error .memory ∨
      ∃ b, a.assign memory i x = .ok b ∧ b.Exact ∧ i < b.array.length ∧
        a.array.length ≤ b.array.length ∧
        ∀ j, b.array[j]? = if j = i then some x else a.array[j]? := by
  have hset : ∀ c : ExpandableArray α, c.Exact → i < c.array.length →
      (do let _ ← c.element i
          Except.ok { c with array := c.array.set (i : Int).toNat x }) =
        (Except.ok { c with array := c.array.set i x } : Except Fault (ExpandableArray α)) ∧
      ({ c with array := c.array.set i x } : ExpandableArray α).Exact := by
    intro c hc hlt
    refine ⟨?_, by simpa using hc.capacity, hc.expandAmount, hc.room⟩
    rw [Runs.bind_of_ok (element_of_get (List.getElem?_eq_getElem hlt)), Int.toNat_natCast]
  rcases Nat.lt_or_eq_of_le hi with hlt | rfl
  · right
    obtain ⟨hok, hexact⟩ := hset a h hlt
    refine ⟨_, ?_, hexact, by simpa using hlt, by simp, fun j => ?_⟩
    · rw [ExpandableArray.assign, h.reserve_below memory hlt, Runs.bind_of_ok rfl, hok]
    · rw [List.getElem?_set]
      by_cases hj : j = i
      · simp [hj, hlt]
      · rw [if_neg hj, if_neg (Ne.symm hj)]
  · obtain hmem | ⟨hext, hexact⟩ := h.reserve_at memory
    · left
      rw [ExpandableArray.assign, hmem]
      rfl
    · right
      have hlength : (a.extended memory).array.length = a.array.length + 1 := by
        simp [ExpandableArray.extended]
      obtain ⟨hok, hexact⟩ := hset _ hexact (by omega)
      refine ⟨_, ?_, hexact, ?_, ?_, fun j => ?_⟩
      · rw [ExpandableArray.assign, hext, Runs.bind_of_ok rfl, hok]
      · rw [List.length_set, hlength]
        exact Nat.lt_succ_self _
      · rw [List.length_set, hlength]
        exact Nat.le_succ _
      · rw [List.getElem?_set]
        by_cases hj : j = a.array.length
        · simp [hj, hlength]
        · rw [if_neg hj, if_neg (Ne.symm hj), ExpandableArray.extended]
          simp only [List.getElem?_append]
          by_cases hlt : j < a.array.length
          · simp [hlt]
          · rw [if_neg hlt, List.getElem?_eq_none (by simp; omega),
              List.getElem?_eq_none (by omega)]

end WagtailExpandableArray
