import Wagtail.ExpandableArray

/-!
# Calls of expandable arrays

Sequences of `get` and `operator[]` on an array that has just been constructed,
with assignments to the references that they return. Expanding to an index
leaves the index itself outside.
-/
namespace WagtailExpandableArray

open Runs (bind_of_ok)
open Word (signed)

variable {α : Type}

/-- A call of `get` or of `operator[]`. `stored` is what is assigned to the reference, and `memory`
what new storage holds. -/
structure Call (α : Type) where
  index : Nat
  stored : Option α
  memory : Nat → α

def ExpandableArray.perform (a : ExpandableArray α) (c : Call α) :
    Except Fault (ExpandableArray α) :=
  match c.stored with
  | none => do
    let (_, a) ← a.get c.memory c.index
    Except.ok a
  | some x => a.assign c.memory c.index x

/-- `get_capacity` is the number of elements that are allocated. -/
def ExpandableArray.CapacityExact (a : ExpandableArray α) : Prop := a.capacity = a.array.length

/-- What a call must leave of the array: the index is inside, the capacity has not become smaller,
and only the element that the call stores is another one. -/
structure ExpandableArray.Kept (a : ExpandableArray α) (c : Call α) (b : ExpandableArray α) :
    Prop where
  inside : c.index < b.capacity ∧ c.index < b.array.length
  grown : a.capacity ≤ b.capacity
  elements : ∀ j < a.array.length,
    b.array[j]? = if j = c.index ∧ c.stored.isSome then c.stored else a.array[j]?

/-- Every call of a sequence keeps the array in order. -/
def ExpandableArray.Behaves (a : ExpandableArray α) : List (Call α) → Prop
  | [] => a.CapacityExact
  | c :: cs => a.CapacityExact ∧
    match a.perform c with
    | .ok b => a.Kept c b ∧ b.Behaves cs
    | .error _ => False

/-- The constructor, and the calls after it. -/
def ConstructedBehaves (capacity : Int) (memory : Nat → α) (initialCapacity expand : Int)
    (calls : List (Call α)) : Prop :=
  match newExpandableArray capacity memory initialCapacity expand with
  | .ok a => a.Behaves calls
  | .error _ => False

/-- The array after the constructor and the calls, as far as they come. -/
def construct (capacity : Int) (memory : Nat → α) (initialCapacity expand : Int)
    (calls : List (Call α)) : Except Fault (ExpandableArray α) := do
  let a ← newExpandableArray capacity memory initialCapacity expand
  calls.foldlM ExpandableArray.perform a

/-- No index lies further beyond the capacity than one expansion reaches. -/
def StaysClose (expand : Int) : Int → List Nat → Prop
  | _, [] => True
  | capacity, i :: indices =>
    if i < capacity then StaysClose expand capacity indices
    else i < signed (capacity + expand) ∧ StaysClose expand (signed (capacity + expand)) indices

/-! ## One call -/

/-- The capacity is that of the storage. -/
structure ExpandableArray.Sized (a : ExpandableArray α) : Prop where
  exact : a.CapacityExact
  room : a.capacity < maxElements

variable {a : ExpandableArray α} {i : Nat} {calls : List (Call α)}

/-- The storage after a call on it. -/
def Call.write (c : Call α) (array : List α) : List α :=
  match c.stored with
  | none => array
  | some x => array.set c.index x

@[simp] theorem Call.length_write (c : Call α) (array : List α) :
    (c.write array).length = array.length := by
  cases h : c.stored <;> simp [Call.write, h]

theorem Call.getElem?_write (c : Call α) {array : List α} {j : Nat} (hj : j < array.length) :
    (c.write array)[j]? = if j = c.index ∧ c.stored.isSome then c.stored else array[j]? := by
  cases h : c.stored with
  | none => simp [Call.write, h]
  | some x =>
    rw [Call.write, h, List.getElem?_set]
    by_cases hindex : j = c.index
    · subst hindex
      simp [hj]
    · simp [hindex, Ne.symm hindex]

theorem perform_eq (a : ExpandableArray α) (c : Call α) :
    a.perform c = (do
      let b ← a.reserve c.memory c.index
      let _ ← b.element c.index
      Except.ok { b with array := c.write b.array }) := by
  cases h : c.stored with
  | none =>
    simp only [ExpandableArray.perform, h, ExpandableArray.get, Call.write]
    cases a.reserve c.memory c.index with
    | error f => rfl
    | ok b => cases hb : b.element c.index <;> simp [hb, bind, Except.bind]
  | some x =>
    simp only [ExpandableArray.perform, h, ExpandableArray.assign, Call.write, Int.toNat_natCast]

theorem perform_of_inside {b : ExpandableArray α} {c : Call α}
    (hb : a.reserve c.memory c.index = .ok b) (hi : c.index < b.array.length) :
    a.perform c = .ok { b with array := c.write b.array } := by
  rw [perform_eq, bind_of_ok hb,
    bind_of_ok (element_of_get (List.getElem?_eq_getElem hi))]

theorem perform_of_outside {b : ExpandableArray α} {c : Call α}
    (hb : a.reserve c.memory c.index = .ok b) (hi : b.array.length ≤ c.index) :
    a.perform c = .error .outside := by
  rw [perform_eq, bind_of_ok hb]
  have hnone : b.array[c.index]? = none := List.getElem?_eq_none hi
  simp [ExpandableArray.element, hnone, bind, Except.bind]

theorem perform_of_error {c : Call α} {fault : Fault}
    (h : a.reserve c.memory c.index = .error fault) : a.perform c = .error fault := by
  rw [perform_eq, h]
  rfl

/-- The call keeps the array in order if what `reserve` leaves has room for the index. -/
theorem ExpandableArray.Kept.of_reserve {b : ExpandableArray α} {c : Call α} {more : List α}
    (hcapacity : b.CapacityExact) (hgrown : a.capacity ≤ b.capacity)
    (hmore : b.array = a.array ++ more) (hi : c.index < b.array.length) :
    a.Kept c { b with array := c.write b.array } := by
  refine ⟨⟨?_, by simpa using hi⟩, hgrown, fun j hj => ?_⟩
  · rw [hcapacity]
    exact_mod_cast hi
  · have hlt : j < b.array.length := by
      rw [hmore, List.length_append]
      omega
    rw [Call.getElem?_write c hlt, hmore, List.getElem?_append_left hj]

/-- One expansion reaches the index. -/
theorem ExpandableArray.Sized.reserve_near (h : a.Sized) (memory : Nat → α)
    (hi : a.capacity ≤ i) (hnear : (i : Int) < signed (a.capacity + a.expandAmount)) :
    a.reserve memory i = .error .memory ∨
      ∃ b more, a.reserve memory i = .ok b ∧ b.Sized ∧
        b.capacity = signed (a.capacity + a.expandAmount) ∧ b.expandAmount = a.expandAmount ∧
        b.array = a.array ++ more := by
  have hgrow : a.reserve memory i = a.expand memory (-1) := by
    rw [ExpandableArray.reserve, if_pos ⟨hi, hnear⟩]
  rw [hgrow, ExpandableArray.expand, if_pos rfl]
  obtain ⟨n, hn⟩ := Int.eq_ofNat_of_zero_le (a := signed (a.capacity + a.expandAmount)) (by omega)
  simp only [hn, newStorage] at hnear ⊢
  have hexact : a.capacity = a.array.length := h.exact
  by_cases hroom : (n : Int) < maxElements
  · right
    rw [if_pos ⟨by omega, hroom⟩, bind_of_ok rfl, if_pos ⟨by omega, by omega⟩]
    refine ⟨_, ((List.range n).map memory).drop a.array.length, rfl, ⟨?_, hroom⟩, rfl, rfl, ?_⟩
    · rw [ExpandableArray.CapacityExact]
      simp [hexact]
      omega
    · simp [hexact]
  · left
    rw [if_neg fun hn => hroom hn.2]
    rfl

/-- Further away, the storage ends right before the index. -/
theorem ExpandableArray.Sized.reserve_far (h : a.Sized) (memory : Nat → α)
    (hi : a.capacity ≤ i) (hfar : signed (a.capacity + a.expandAmount) ≤ i) :
    a.reserve memory i = .error .memory ∨
      ∃ b, a.reserve memory i = .ok b ∧ b.array.length = i := by
  have hexpand : a.reserve memory i = a.expand memory i := by
    rw [ExpandableArray.reserve, if_neg (by omega), if_pos hi]
  have hindex : (i : Int) ≠ -1 := by omega
  rw [hexpand, ExpandableArray.expand, if_neg hindex, newStorage]
  have hexact : a.capacity = a.array.length := h.exact
  by_cases hroom : (i : Int) < maxElements
  · right
    rw [if_pos ⟨by omega, hroom⟩, bind_of_ok rfl, if_pos ⟨by omega, hi⟩]
    refine ⟨_, rfl, ?_⟩
    simp [hexact]
    omega
  · left
    rw [if_neg fun hi => hroom hi.2]
    rfl

/-! ## Sequences of calls -/

theorem ExpandableArray.Sized.write {b : ExpandableArray α} (h : b.Sized) (c : Call α) :
    ({ b with array := c.write b.array } : ExpandableArray α).Sized :=
  ⟨by rw [ExpandableArray.CapacityExact, Call.length_write]; exact h.exact, h.room⟩

/-- A call that finds its index inside. -/
theorem perform_inside {b : ExpandableArray α} {c : Call α} {more : List α}
    (hb : a.reserve c.memory c.index = .ok b) (hsized : b.Sized) (hgrown : a.capacity ≤ b.capacity)
    (hmore : b.array = a.array ++ more) (hi : (c.index : Int) < b.capacity) :
    a.perform c = .ok { b with array := c.write b.array } ∧
      a.Kept c { b with array := c.write b.array } := by
  have hlt : c.index < b.array.length := by
    rw [hsized.exact] at hi
    exact_mod_cast hi
  exact ⟨perform_of_inside hb hlt, .of_reserve hsized.exact hgrown hmore hlt⟩

/-- From an array that is in order, every call must stay close to the capacity. -/
theorem ExpandableArray.Sized.behaves_iff (h : a.Sized) (calls : List (Call α))
    (hserved : calls.foldlM ExpandableArray.perform a ≠ .error .memory) :
    a.Behaves calls ↔ StaysClose a.expandAmount a.capacity (calls.map Call.index) := by
  induction calls generalizing a with
  | nil => simp [ExpandableArray.Behaves, StaysClose, h.exact]
  | cons c calls ih =>
    simp only [ExpandableArray.Behaves, StaysClose, List.map_cons, h.exact, true_and]
    rw [List.foldlM_cons] at hserved
    by_cases hi : (c.index : Int) < a.capacity
    · obtain ⟨hperform, hkept⟩ := perform_inside (reserve_of_lt c.memory hi) h le_rfl
        (List.append_nil _).symm hi
      rw [bind_of_ok hperform] at hserved
      simp only [hperform, if_pos hi]
      rw [and_iff_right hkept]
      exact ih (h.write c) hserved
    rw [if_neg hi]
    by_cases hnear : (c.index : Int) < signed (a.capacity + a.expandAmount)
    · rw [and_iff_right hnear]
      obtain herror | ⟨b, more, hb, hsized, hcapacity, hexpand, hmore⟩ :=
        h.reserve_near c.memory (by omega) hnear
      · rw [perform_of_error herror] at hserved
        exact absurd rfl hserved
      · obtain ⟨hperform, hkept⟩ := perform_inside hb hsized (by omega) hmore (by omega)
        rw [bind_of_ok hperform] at hserved
        simp only [hperform]
        rw [and_iff_right hkept, ih (hsized.write c) hserved, hexpand, hcapacity]
    · refine iff_of_false ?_ fun hclose => hnear hclose.1
      obtain herror | ⟨b, hb, hlength⟩ := h.reserve_far (i := c.index) c.memory (by omega) (by omega)
      · rw [perform_of_error herror] at hserved
        exact absurd rfl hserved
      · simp only [perform_of_outside hb hlength.le, not_false_eq_true]

theorem ExpandableArray.Behaves.exact (h : a.Behaves calls) : a.CapacityExact := by
  cases calls with
  | nil => exact h
  | cons c calls => exact h.1

theorem newExpandableArray_cases (capacity : Int) (memory : Nat → α) (initialCapacity : Nat)
    (expand : Int) :
    (initialCapacity : Int) < maxElements ∧
      newExpandableArray capacity memory initialCapacity expand = .ok
        { capacity, expandAmount := expand, array := (List.range initialCapacity).map memory } ∨
    newExpandableArray capacity memory initialCapacity expand = .error .memory := by
  rw [newExpandableArray, newStorage]
  by_cases hroom : (initialCapacity : Int) < maxElements
  · rw [if_pos ⟨by omega, hroom⟩, bind_of_ok rfl, Int.toNat_natCast]
    exact .inl ⟨hroom, rfl⟩
  · rw [if_neg fun h => hroom h.2]
    exact .inr rfl

/-- With memory for all expansions the array behaves when its capacity happens to start out right,
and no index lies beyond what one expansion adds. -/
theorem constructedBehaves_iff (capacity : Int) (memory : Nat → α) (initialCapacity : Nat)
    (expand : Int) (calls : List (Call α))
    (hserved : construct capacity memory initialCapacity expand calls ≠ .error .memory) :
    ConstructedBehaves capacity memory initialCapacity expand calls ↔
      capacity = initialCapacity ∧ StaysClose expand initialCapacity (calls.map Call.index) := by
  obtain ⟨hroom, hnew⟩ | hnew := newExpandableArray_cases capacity memory initialCapacity expand
  · rw [construct, bind_of_ok hnew] at hserved
    rw [ConstructedBehaves, hnew]
    have hsized : capacity = initialCapacity → ExpandableArray.Sized
        { capacity, expandAmount := expand, array := (List.range initialCapacity).map memory } :=
      fun hcapacity =>
        ⟨by simpa [ExpandableArray.CapacityExact] using hcapacity, by simpa [hcapacity] using hroom⟩
    constructor
    · intro h
      have hcapacity : capacity = initialCapacity := by
        simpa [ExpandableArray.CapacityExact] using h.exact
      exact ⟨hcapacity, hcapacity ▸ ((hsized hcapacity).behaves_iff calls hserved).mp h⟩
    · rintro ⟨hcapacity, hclose⟩
      exact ((hsized hcapacity).behaves_iff calls hserved).mpr (hcapacity ▸ hclose)
  · rw [construct, hnew] at hserved
    exact absurd rfl hserved

/-- Two elements that grow by two: a store beyond them, one right behind those, and a read. -/
def twoCalls : List (Call Nat) :=
  [⟨3, some 7, fun _ => 0⟩, ⟨4, some 8, fun _ => 0⟩, ⟨3, none, fun _ => 0⟩]

theorem twoCalls_behave : ConstructedBehaves 2 (fun _ => 0) 2 2 twoCalls :=
  (constructedBehaves_iff 2 (fun _ => 0) 2 2 twoCalls nofun).mpr
    ⟨rfl, by decide, by decide, True.intro⟩

/-- Four elements that grow by one, and `get(5)`. -/
theorem not_constructedBehaves_five :
    construct 4 (fun _ => 0) 4 1 [(⟨5, none, fun _ => 0⟩ : Call Nat)] ≠ .error .memory ∧
      ¬ ConstructedBehaves 4 (fun _ => 0) 4 1 [(⟨5, none, fun _ => 0⟩ : Call Nat)] :=
  ⟨nofun, fun h => h.2⟩

end WagtailExpandableArray
