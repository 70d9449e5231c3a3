import Mathlib.Logic.Function.Basic
import Wagtail.Library.Links
import Wagtail.Library.Word

/-!
# The nodes of a kernel queue

`kqueue.h` with its nodes in memory. Address 0 is the null pointer. An operation
gives `none` where it follows a pointer that does not lead to a node. Which nodes
have been allocated and deleted is written down beside the queue.
-/
namespace WagtailKqueue

open Links (Seg lastOr)
open Word (signed)

variable {α : Type}

/-- `kqueue`, and the nodes in memory field by field: `data` is `none` where there is no node. -/
structure NodeQueue (α : Type) where
  front : Nat
  back : Nat
  length : Int
  data : Nat → Option α
  next : Nat → Nat
  prev : Nat → Nat
  allocated : List Nat
  deleted : List Nat

/-- A queue that has just been constructed, with the nodes that are in memory. -/
def newKqueue (data : Nat → Option α) (next prev : Nat → Nat) : NodeQueue α :=
  { front := 0, back := 0, length := 0, data, next, prev, allocated := [], deleted := [] }

/-! ## The nodes -/

/-- `new node(data, next, prev)`, at the address that the allocator gives. -/
def NodeQueue.newNode (q : NodeQueue α) (address : Nat) (data : α) (next prev : Nat) :
    NodeQueue α :=
  { q with
    data := Function.update q.data address (some data)
    next := Function.update q.next address next
    prev := Function.update q.prev address prev
    allocated := q.allocated ++ [address] }

/-- `delete n`. -/
def NodeQueue.delete (q : NodeQueue α) (n : Nat) : Option (NodeQueue α) :=
  if (q.data n).isSome then
    some { q with data := Function.update q.data n none, deleted := q.deleted ++ [n] }
  else none

/-- `node::get_next`. -/
def NodeQueue.getNext (q : NodeQueue α) (n : Nat) : Option Nat :=
  if (q.data n).isSome then some (q.next n) else none

/-- `node::get_prev`. -/
def NodeQueue.getPrev (q : NodeQueue α) (n : Nat) : Option Nat :=
  if (q.data n).isSome then some (q.prev n) else none

/-- `node::set_next`. -/
def NodeQueue.setNext (q : NodeQueue α) (n next : Nat) : Option (NodeQueue α) :=
  if (q.data n).isSome then some { q with next := Function.update q.next n next } else none

/-- `node::set_prev`. -/
def NodeQueue.setPrev (q : NodeQueue α) (n prev : Nat) : Option (NodeQueue α) :=
  if (q.data n).isSome then some { q with prev := Function.update q.prev n prev } else none

/-! ## The operations -/

/-- `kqueue::push_front`. -/
def NodeQueue.pushFront (q : NodeQueue α) (address : Nat) (data : α) : Option (NodeQueue α) := do
  let q := q.newNode address data q.front 0
  let q ← if q.front ≠ 0 then q.setPrev q.front address else some { q with back := address }
  some { q with front := address, length := signed (q.length + 1) }

/-- `kqueue::push_back`. -/
def NodeQueue.pushBack (q : NodeQueue α) (address : Nat) (data : α) : Option (NodeQueue α) := do
  let q := q.newNode address data 0 q.back
  let q ← if q.back ≠ 0 then q.setNext q.back address else some { q with front := address }
  some { q with back := address, length := signed (q.length + 1) }

/-- `kqueue::pop_back`: the element, or `none` where it returns `false`. -/
def NodeQueue.popBack (q : NodeQueue α) : Option (NodeQueue α × Option α) :=
  if q.back = 0 then some (q, none)
  else do
    let n := q.back
    let retval ← q.data n
    let prev ← q.getPrev n
    let q ← if prev ≠ 0 then ({ q with back := prev } : NodeQueue α).setNext prev 0
      else some { q with back := 0, front := 0 }
    let q := { q with length := signed (q.length - 1) }
    let q ← q.delete n
    some (q, some retval)

/-- `kqueue::pop_front`. -/
def NodeQueue.popFront (q : NodeQueue α) : Option (NodeQueue α × Option α) :=
  if q.front = 0 then some (q, none)
  else do
    let n := q.front
    let retval ← q.data n
    let next ← q.getNext n
    let q ← if next ≠ 0 then ({ q with front := next } : NodeQueue α).setPrev next 0
      else some { q with back := 0, front := 0 }
    let q := { q with length := signed (q.length - 1) }
    let q ← q.delete n
    some (q, some retval)

/-- `kqueue::remove`: the node of the iterator that it returns. The node is linked out, neither
counted down nor deleted. -/
def NodeQueue.remove (q : NodeQueue α) (n : Nat) : Option (NodeQueue α × Nat) := do
  let prev ← q.getPrev n
  let next ← q.getNext n
  let q ← (if prev ≠ 0 then q.setNext prev next else some q)
  let next ← q.getNext n
  let prev ← q.getPrev n
  let q ← (if next ≠ 0 then q.setPrev next prev else some q)
  let next ← q.getNext n
  let q := { q with front := if n = q.front then next else q.front }
  let prev ← q.getPrev n
  let q := { q with back := if n = q.back then prev else q.back }
  let retval ← q.getNext n
  some (q, retval)

/-- More nodes than there are addresses do not fit into memory. -/
def maxNodes : Nat := 0x100000000

/-- The loop of `kqueue::clear`. -/
def NodeQueue.clearFrom : Nat → NodeQueue α → Nat → Option (NodeQueue α)
  | 0, _, _ => none
  | turns + 1, q, currentNode =>
    if currentNode = 0 then some q
    else do
      let next ← q.getNext currentNode
      let q ← q.delete currentNode
      NodeQueue.clearFrom turns q next

/-- `kqueue::clear`. `front`, `back` and `length` stay as they are. -/
def NodeQueue.clear (q : NodeQueue α) : Option (NodeQueue α) :=
  NodeQueue.clearFrom maxNodes q q.front

/-- `kqueue::get_length`. -/
def NodeQueue.getLength (q : NodeQueue α) : Nat := (q.length % 4294967296).toNat

/-- An element with the address of its node. -/
structure Element (α : Type) where
  address : Nat
  data : α
  deriving DecidableEq, Repr

/-- The elements that links lead to, one after the other, up to the null pointer. -/
def NodeQueue.follow (q : NodeQueue α) (link : Nat → Nat) : Nat → Nat → Option (List (Element α))
  | 0, _ => none
  | turns + 1, n =>
    if n = 0 then some []
    else do
      let data ← q.data n
      let rest ← q.follow link turns (link n)
      some (⟨n, data⟩ :: rest)

/-- A forward iteration, from `begin` to `end`. -/
def NodeQueue.elements (q : NodeQueue α) : Option (List (Element α)) :=
  q.follow q.next maxNodes q.front

/-- The elements that the links back lead to. -/
def NodeQueue.elementsBack (q : NodeQueue α) : Option (List (Element α)) :=
  q.follow q.prev maxNodes q.back

/-! ## Queues in memory -/

def addresses (l : List (Element α)) : List Nat := l.map Element.address

@[simp] theorem addresses_nil : addresses ([] : List (Element α)) = [] := rfl

@[simp] theorem addresses_cons (e : Element α) (l : List (Element α)) :
    addresses (e :: l) = e.address :: addresses l := rfl

@[simp] theorem addresses_append (l l' : List (Element α)) :
    addresses (l ++ l') = addresses l ++ addresses l' := List.map_append

theorem lastOr_addresses (l : List (Element α)) (e : Element α) :
    lastOr 0 (addresses (l ++ [e])) = e.address := by
  rw [addresses_append]
  exact Links.lastOr_concat

theorem headD_eq_zero {l : List (Element α)} (hne : ∀ e ∈ l, e.address ≠ 0) :
    (addresses l).headD 0 = 0 ↔ l = [] := by
  cases l with
  | nil => simp
  | cons e l => simp [hne]

theorem lastOr_eq_zero {l : List (Element α)} (hne : ∀ e ∈ l, e.address ≠ 0) :
    lastOr 0 (addresses l) = 0 ↔ l = [] := by
  rcases List.eq_nil_or_concat l with rfl | ⟨l, e, rfl⟩
  · simp
  · rw [List.concat_eq_append] at hne ⊢
    simp [hne]

theorem mem_addresses {e : Element α} {l : List (Element α)} (h : e ∈ l) :
    e.address ∈ addresses l := List.mem_map_of_mem h

/-- The nodes of the queue hold these elements and are linked in this order. -/
structure NodeQueue.Represents (q : NodeQueue α) (l : List (Element α)) : Prop where
  front : q.front = (addresses l).headD 0
  back : q.back = lastOr 0 (addresses l)
  linked : Seg q.next q.prev 0 (addresses l) 0
  data : ∀ e ∈ l, q.data e.address = some e.data
  nodup : (addresses l).Nodup
  address : ∀ e ∈ l, 0 < e.address ∧ e.address < 2 ^ 32

variable {q : NodeQueue α} {l l₁ l₂ : List (Element α)} {e : Element α} {a : Nat}

theorem newKqueue_represents (data : Nat → Option α) (next prev : Nat → Nat) :
    (newKqueue data next prev).Represents [] where
  front := rfl
  back := rfl
  linked := trivial
  data := by simp
  nodup := List.nodup_nil
  address := by simp

theorem NodeQueue.Represents.not_mem (h : q.Represents l) (ha : q.data a = none) :
    a ∉ addresses l := by
  intro hmem
  obtain ⟨e, he, rfl⟩ := List.mem_map.mp hmem
  simp [h.data e he] at ha

theorem NodeQueue.Represents.length_lt (h : q.Represents l) : l.length < maxNodes := by
  have hlt := Word.length_lt (n := 2 ^ 32) (by decide) h.nodup fun a ha => by
    obtain ⟨e, he, rfl⟩ := List.mem_map.mp ha
    exact h.address e he
  rwa [addresses, List.length_map] at hlt

theorem NodeQueue.Represents.isSome (h : q.Represents l) (he : e ∈ l) :
    (q.data e.address).isSome := by
  rw [h.data e he]
  rfl

theorem NodeQueue.Represents.ne_zero (h : q.Represents l) (he : e ∈ l) : e.address ≠ 0 :=
  Nat.pos_iff_ne_zero.mp (h.address e he).1

theorem NodeQueue.Represents.front_isSome (h : q.Represents l) (hfront : q.front ≠ 0) :
    (q.data q.front).isSome := by
  cases l with
  | nil => exact absurd h.front hfront
  | cons e l =>
    rw [h.front]
    exact h.isSome (e := e) (by simp)

theorem NodeQueue.Represents.back_isSome (h : q.Represents l) (hback : q.back ≠ 0) :
    (q.data q.back).isSome := by
  rcases List.eq_nil_or_concat l with rfl | ⟨l, e, rfl⟩
  · exact absurd h.back hback
  · rw [h.back]
    simpa using h.isSome (e := e) (by simp)

theorem NodeQueue.Represents.mem_ne_zero (h : q.Represents l) (ha : a ∈ addresses l) : a ≠ 0 := by
  obtain ⟨e, he, rfl⟩ := List.mem_map.mp ha
  exact h.ne_zero he

theorem NodeQueue.Represents.front_mem (h : q.Represents l) (hfront : q.front ≠ 0) :
    q.front ∈ addresses l :=
  List.mem_of_mem_head? (Links.head?_of_headD h.front.symm hfront)

theorem NodeQueue.Represents.front_eq_zero (h : q.Represents l) : q.front = 0 ↔ l = [] := by
  rw [h.front]
  exact headD_eq_zero fun e he => h.ne_zero he

theorem NodeQueue.Represents.back_eq_zero (h : q.Represents l) : q.back = 0 ↔ l = [] := by
  rw [h.back]
  exact lastOr_eq_zero fun e he => h.ne_zero he

/-- Another node in memory leaves the elements of a queue alone. -/
theorem NodeQueue.Represents.data_update (h : q.Represents l) (ha : a ∉ addresses l)
    (x : Option α) : ∀ e ∈ l, Function.update q.data a x e.address = some e.data := by
  intro e he
  have hne : e.address ≠ a := fun heq => ha (heq ▸ mem_addresses he)
  rw [Function.update_of_ne hne, h.data e he]

theorem isSome_update (a : Nat) (x : α) {b : Nat} (h : (q.data b).isSome) :
    (Function.update q.data a (some x) b).isSome := by
  rw [Function.update_apply]
  split
  · rfl
  · exact h

/-- Links after the node at `b` has been given another one, unless `b` is the null pointer. -/
def relink (links : Nat → Nat) (b value : Nat) : Nat → Nat :=
  if b = 0 then links else Function.update links b value

theorem relink_null {links : Nat → Nat} {value : Nat} : relink links 0 value = links := if_pos rfl

theorem relink_self {links : Nat → Nat} {b value : Nat} (hb : b ≠ 0) :
    relink links b value b = value := by
  rw [relink, if_neg hb, Function.update_self]

theorem relink_of_ne {links : Nat → Nat} {b value y : Nat} (h : b ≠ 0 → y ≠ b) :
    relink links b value y = links y := by
  rw [relink]
  by_cases hb : b = 0
  · rw [if_pos hb]
  · rw [if_neg hb, Function.update_of_ne (h hb)]

theorem setNext_relink {b value : Nat} (h : b ≠ 0 → (q.data b).isSome) :
    (if b ≠ 0 then q.setNext b value else some q) =
      some { q with next := relink q.next b value } := by
  by_cases hb : b = 0
  · rw [if_neg (not_not.mpr hb), hb, relink_null]
  · rw [if_pos hb, NodeQueue.setNext, if_pos (h hb), relink, if_neg hb]

theorem setPrev_relink {b value : Nat} (h : b ≠ 0 → (q.data b).isSome) :
    (if b ≠ 0 then q.setPrev b value else some q) =
      some { q with prev := relink q.prev b value } := by
  by_cases hb : b = 0
  · rw [if_neg (not_not.mpr hb), hb, relink_null]
  · rw [if_pos hb, NodeQueue.setPrev, if_pos (h hb), relink, if_neg hb]

/-! ### Pushing -/

/-- A new node between the elements of a queue. -/
theorem NodeQueue.Represents.linkIn (h : q.Represents (l₁ ++ l₂)) (ha : 0 < a ∧ a < 2 ^ 32)
    (hnew : a ∉ addresses (l₁ ++ l₂)) {x : α} {q' : NodeQueue α} {left right : Nat}
    (hleft : lastOr 0 (addresses l₁) = left) (hright : (addresses l₂).headD 0 = right)
    (hfront : q'.front = if left = 0 then a else q.front)
    (hback : q'.back = if right = 0 then a else q.back)
    (hnext : q'.next = relink (Function.update q.next a right) left a)
    (hprev : q'.prev = relink (Function.update q.prev a left) right a)
    (hdata : q'.data = Function.update q.data a (some x)) :
    q'.Represents (l₁ ++ ⟨a, x⟩ :: l₂) := by
  have hlinked := h.linked
  have hnodup := h.nodup
  have hmem : ∀ y ∈ addresses l₁ ++ addresses l₂, y ≠ a ∧ y ≠ 0 := by
    intro y hy
    rw [← addresses_append] at hy
    exact ⟨fun heq => hnew (heq ▸ hy), h.mem_ne_zero hy⟩
  have hleft0 : left = 0 ↔ l₁ = [] := by
    rw [← hleft]
    exact lastOr_eq_zero fun f hf => h.ne_zero (List.mem_append_left _ hf)
  have hright0 : right = 0 ↔ l₂ = [] := by
    rw [← hright]
    exact headD_eq_zero fun f hf => h.ne_zero (List.mem_append_right _ hf)
  have hlast : left ≠ 0 → (addresses l₁).getLast? = some left := by
    intro h0
    rw [← hleft] at h0 ⊢
    exact Links.getLast?_eq_lastOr h0
  have hhead : right ≠ 0 → (addresses l₂).head? = some right := Links.head?_of_headD hright
  rw [addresses_append] at hlinked hnodup
  exact {
    front := by
      rw [hfront]
      cases l₁ with
      | nil =>
        rw [if_pos (hleft0.mpr rfl)]
        rfl
      | cons f l₁ =>
        rw [if_neg fun h0 => List.cons_ne_nil f l₁ (hleft0.mp h0), h.front]
        rfl
    back := by
      rw [hback]
      rcases List.eq_nil_or_concat l₂ with rfl | ⟨l₂, f, rfl⟩
      · rw [if_pos (hright0.mpr rfl), lastOr_addresses]
      · have hlast : l₁ ++ ⟨a, x⟩ :: (l₂ ++ [f]) = l₁ ++ ⟨a, x⟩ :: l₂ ++ [f] := by simp
        rw [if_neg fun h0 => by simpa using hright0.mp h0, h.back, List.concat_eq_append, hlast,
          lastOr_addresses, ← List.append_assoc, lastOr_addresses]
    linked := by
      rw [addresses_append, addresses_cons, hnext, hprev]
      refine hlinked.insert hnodup ?_ ?_ ?_ ?_ ?_ ?_
      · intro y hy
        obtain rfl : left = y := hleft.symm.trans (Links.lastOr_of_getLast? hy)
        exact relink_self (hmem _ (List.mem_append_left _ (List.mem_of_getLast? hy))).2
      · intro y hy
        obtain rfl : right = y := hright.symm.trans (Links.headD_of_head? hy)
        exact relink_self (hmem _ (List.mem_append_right _ (List.mem_of_mem_head? hy))).2
      · have ha : left ≠ 0 → a ≠ left := fun h0 =>
          (hmem _ (List.mem_append_left _ (List.mem_of_getLast? (hlast h0)))).1.symm
        rw [relink_of_ne ha, Function.update_self, hright]
      · have ha : right ≠ 0 → a ≠ right := fun h0 =>
          (hmem _ (List.mem_append_right _ (List.mem_of_mem_head? (hhead h0)))).1.symm
        rw [relink_of_ne ha, Function.update_self, hleft]
      · intro y hy hy'
        have hne : left ≠ 0 → y ≠ left := fun h0 heq => hy' (heq ▸ hlast h0)
        rw [relink_of_ne hne, Function.update_of_ne (hmem y hy).1]
      · intro y hy hy'
        have hne : right ≠ 0 → y ≠ right := fun h0 heq => hy' (heq ▸ hhead h0)
        rw [relink_of_ne hne, Function.update_of_ne (hmem y hy).1]
    data := by
      intro e he
      rw [hdata]
      rcases (by simpa [or_left_comm] using he : e = ⟨a, x⟩ ∨ e ∈ l₁ ++ l₂) with rfl | he
      · exact Function.update_self ..
      · exact h.data_update hnew (some x) e he
    nodup := by
      rw [addresses_append] at hnew ⊢
      exact List.nodup_middle.mpr (List.nodup_cons.mpr ⟨hnew, hnodup⟩)
    address := by
      intro e he
      rcases (by simpa [or_left_comm] using he : e = ⟨a, x⟩ ∨ e ∈ l₁ ++ l₂) with rfl | he
      · exact ha
      · exact h.address e he }

/-- `kqueue::push_front` puts the element in front. -/
theorem NodeQueue.Represents.pushFront (h : q.Represents l) (ha : 0 < a ∧ a < 2 ^ 32)
    (hfresh : q.data a = none) (x : α) :
    ∃ q', q.pushFront a x = some q' ∧ q'.Represents (⟨a, x⟩ :: l) ∧
      q'.length = signed (q.length + 1) ∧ q'.allocated = q.allocated ++ [a] ∧
      q'.deleted = q.deleted := by
  have hpush : q.pushFront a x = some { q with
      front := a
      back := if q.front = 0 then a else q.back
      length := signed (q.length + 1)
      data := Function.update q.data a (some x)
      next := Function.update q.next a q.front
      prev := relink (Function.update q.prev a 0) q.front a
      allocated := q.allocated ++ [a] } := by
    by_cases hfront : q.front = 0
    · simp [NodeQueue.pushFront, NodeQueue.newNode, relink, hfront]
    · have hsome := isSome_update a x (h.front_isSome hfront)
      simp [NodeQueue.pushFront, NodeQueue.newNode, NodeQueue.setPrev, relink, hfront, hsome]
  have hsplit : q.Represents ([] ++ l) := h
  exact ⟨_, hpush, hsplit.linkIn ha (h.not_mem hfresh) rfl h.front.symm rfl rfl relink_null.symm rfl
    rfl, rfl, rfl, rfl⟩

/-- `kqueue::push_back` puts the element at the back. -/
theorem NodeQueue.Represents.pushBack (h : q.Represents l) (ha : 0 < a ∧ a < 2 ^ 32)
    (hfresh : q.data a = none) (x : α) :
    ∃ q', q.pushBack a x = some q' ∧ q'.Represents (l ++ [⟨a, x⟩]) ∧
      q'.length = signed (q.length + 1) ∧ q'.allocated = q.allocated ++ [a] ∧
      q'.deleted = q.deleted := by
  have hpush : q.pushBack a x = some { q with
      front := if q.back = 0 then a else q.front
      back := a
      length := signed (q.length + 1)
      data := Function.update q.data a (some x)
      next := relink (Function.update q.next a 0) q.back a
      prev := Function.update q.prev a q.back
      allocated := q.allocated ++ [a] } := by
    by_cases hback : q.back = 0
    · simp [NodeQueue.pushBack, NodeQueue.newNode, relink, hback]
    · have hsome := isSome_update a x (h.back_isSome hback)
      simp [NodeQueue.pushBack, NodeQueue.newNode, NodeQueue.setNext, relink, hback, hsome]
  have hsplit : q.Represents (l ++ []) := (List.append_nil l).symm ▸ h
  have hnew : a ∉ addresses (l ++ []) := hsplit.not_mem hfresh
  exact ⟨_, hpush, hsplit.linkIn ha hnew h.back.symm rfl rfl rfl rfl relink_null.symm rfl, rfl, rfl,
    rfl⟩

/-! ### Taking out -/

/-- What both neighbours of a node point to once it is out, and whether there are any. -/
structure Between (q : NodeQueue α) (l₁ : List (Element α)) (e : Element α)
    (l₂ : List (Element α)) : Prop where
  next : q.next e.address = (addresses l₂).headD 0
  prev : q.prev e.address = lastOr 0 (addresses l₁)
  next_isSome : q.next e.address ≠ 0 → (q.data (q.next e.address)).isSome
  prev_isSome : q.prev e.address ≠ 0 → (q.data (q.prev e.address)).isSome
  next_eq_zero : q.next e.address = 0 ↔ l₂ = []
  prev_eq_zero : q.prev e.address = 0 ↔ l₁ = []
  next_ne : q.next e.address ≠ 0 → e.address ≠ q.next e.address
  prev_ne : q.prev e.address ≠ 0 → e.address ≠ q.prev e.address
  eq_front : e.address = q.front ↔ q.prev e.address = 0
  eq_back : e.address = q.back ↔ q.next e.address = 0

theorem NodeQueue.Represents.between (h : q.Represents (l₁ ++ e :: l₂)) : Between q l₁ e l₂ := by
  have hlinked := h.linked
  have hnodup := h.nodup
  have hfront := h.front
  rw [addresses_append, addresses_cons] at hlinked hnodup hfront
  obtain ⟨-, hnodup₂, hapart⟩ := List.nodup_append.mp hnodup
  have hleft : ∀ f ∈ l₁, e.address ≠ f.address := fun f hf heq =>
    hapart _ (mem_addresses hf) _ (by simp) heq.symm
  have hright : ∀ f ∈ l₂, e.address ≠ f.address := fun f hf heq =>
    (List.nodup_cons.mp hnodup₂).1 (heq ▸ mem_addresses hf)
  have hnext := hlinked.next_eq
  have hprev := hlinked.prev_eq
  have hnext0 : q.next e.address = 0 ↔ l₂ = [] := by
    rw [hnext]
    exact headD_eq_zero fun f hf => h.ne_zero (by simp [hf])
  have hprev0 : q.prev e.address = 0 ↔ l₁ = [] := by
    rw [hprev]
    exact lastOr_eq_zero fun f hf => h.ne_zero (by simp [hf])
  have hnextMem : q.next e.address ≠ 0 → ∃ f ∈ l₂, q.next e.address = f.address := by
    cases l₂ with
    | nil => exact fun h0 => absurd (hnext0.mpr rfl) h0
    | cons f l => exact fun _ => ⟨f, by simp, hnext⟩
  have hprevMem : q.prev e.address ≠ 0 → ∃ f ∈ l₁, q.prev e.address = f.address := by
    rcases List.eq_nil_or_concat l₁ with rfl | ⟨l, f, rfl⟩
    · exact fun h0 => absurd (hprev0.mpr rfl) h0
    · exact fun _ => ⟨f, by simp, by simpa using hprev⟩
  exact {
    next := hnext
    prev := hprev
    next_isSome := fun h0 => by
      obtain ⟨f, hf, heq⟩ := hnextMem h0
      exact heq ▸ h.isSome (by simp [hf])
    prev_isSome := fun h0 => by
      obtain ⟨f, hf, heq⟩ := hprevMem h0
      exact heq ▸ h.isSome (by simp [hf])
    next_eq_zero := hnext0
    prev_eq_zero := hprev0
    next_ne := fun h0 => by
      obtain ⟨f, hf, heq⟩ := hnextMem h0
      exact heq ▸ hright f hf
    prev_ne := fun h0 => by
      obtain ⟨f, hf, heq⟩ := hprevMem h0
      exact heq ▸ hleft f hf
    eq_front := by
      rw [hprev0, hfront]
      cases l₁ with
      | nil => simp
      | cons f l => simpa using hleft f (by simp)
    eq_back := by
      rw [hnext0, h.back]
      rcases List.eq_nil_or_concat l₂ with rfl | ⟨l, f, rfl⟩
      · simp
      · have hlast : l₁ ++ e :: (l ++ [f]) = l₁ ++ e :: l ++ [f] := by simp
        rw [List.concat_eq_append, hlast, lastOr_addresses]
        simpa using hright f (by simp) }

/-- The rest of the queue, once a node is linked out. -/
theorem NodeQueue.Represents.linkOut (h : q.Represents (l₁ ++ e :: l₂)) {q' : NodeQueue α}
    (hfront : q'.front = if q.prev e.address = 0 then q.next e.address else q.front)
    (hback : q'.back = if q.next e.address = 0 then q.prev e.address else q.back)
    (hnext : q'.next = relink q.next (q.prev e.address) (q.next e.address))
    (hprev : q'.prev = relink q.prev (q.next e.address) (q.prev e.address))
    (hdata : ∀ f ∈ l₁ ++ l₂, q'.data f.address = q.data f.address) :
    q'.Represents (l₁ ++ l₂) := by
  have hb := h.between
  have hsub : (l₁ ++ l₂).Sublist (l₁ ++ e :: l₂) :=
    (List.Sublist.refl l₁).append (List.sublist_cons_self e l₂)
  have hlinked := h.linked
  have hnodup := h.nodup
  have hmem : ∀ y ∈ addresses l₁ ++ addresses l₂, y ≠ 0 := fun y hy => by
    rw [← addresses_append] at hy
    exact h.mem_ne_zero ((hsub.map Element.address).subset hy)
  rw [addresses_append, addresses_cons] at hlinked hnodup
  exact {
    front := by
      rw [hfront]
      cases l₁ with
      | nil => rw [if_pos (hb.prev_eq_zero.mpr rfl), hb.next, List.nil_append]
      | cons f l₁ =>
        rw [if_neg fun h0 => List.cons_ne_nil f l₁ (hb.prev_eq_zero.mp h0), h.front]
        rfl
    back := by
      rw [hback]
      rcases List.eq_nil_or_concat l₂ with rfl | ⟨l₂, f, rfl⟩
      · rw [if_pos (hb.next_eq_zero.mpr rfl), hb.prev, List.append_nil]
      · have hlast : l₁ ++ e :: (l₂ ++ [f]) = l₁ ++ e :: l₂ ++ [f] := by simp
        rw [if_neg fun h0 => by simpa using hb.next_eq_zero.mp h0, h.back, List.concat_eq_append,
          hlast, lastOr_addresses, ← List.append_assoc, lastOr_addresses]
    linked := by
      rw [addresses_append, hnext, hprev]
      refine hlinked.remove hnodup ?_ ?_ ?_ ?_
      · intro y hy
        have hy' : q.prev e.address = y := hb.prev.trans (Links.lastOr_of_getLast? hy)
        rw [← hb.next, ← hy']
        exact relink_self (hy' ▸ hmem y (List.mem_append_left _ (List.mem_of_getLast? hy)))
      · intro y hy
        have hy' : q.next e.address = y := hb.next.trans (Links.headD_of_head? hy)
        rw [← hb.prev, ← hy']
        exact relink_self (hy' ▸ hmem y (List.mem_append_right _ (List.mem_of_mem_head? hy)))
      · intro y _ hlast
        refine relink_of_ne ?_
        rintro h0 rfl
        rw [hb.prev] at h0 hlast
        exact hlast (Links.getLast?_eq_lastOr h0)
      · intro y _ hhead
        refine relink_of_ne ?_
        rintro h0 rfl
        exact hhead (Links.head?_of_headD hb.next.symm h0)
    data := fun f hf => by rw [hdata f hf, h.data f (hsub.subset hf)]
    nodup := h.nodup.sublist (hsub.map Element.address)
    address := fun f hf => h.address f (hsub.subset hf) }

theorem pop_empty (h : q.Represents []) :
    q.popFront = some (q, none) ∧ q.popBack = some (q, none) := by
  simp [NodeQueue.popFront, NodeQueue.popBack, h.front_eq_zero, h.back_eq_zero]

/-- The data of the other elements, once a node is deleted. -/
theorem NodeQueue.Represents.data_delete (h : q.Represents (l₁ ++ e :: l₂)) :
    ∀ f ∈ l₁ ++ l₂, Function.update q.data e.address none f.address = q.data f.address := by
  intro f hf
  have hnodup := h.nodup
  rw [addresses_append, addresses_cons, List.nodup_middle] at hnodup
  have hne : f.address ≠ e.address := by
    intro heq
    refine (List.nodup_cons.mp hnodup).1 ?_
    rw [← addresses_append, ← heq]
    exact mem_addresses hf
  exact Function.update_of_ne hne ..

/-- `kqueue::pop_front` takes the first element. -/
theorem NodeQueue.Represents.popFront (h : q.Represents (e :: l)) :
    ∃ q', q.popFront = some (q', some e.data) ∧ q'.Represents l ∧
      q'.length = signed (q.length - 1) ∧ q'.allocated = q.allocated ∧
      q'.deleted = q.deleted ++ [e.address] := by
  have hsplit : q.Represents ([] ++ e :: l) := h
  have hb : Between q [] e l := hsplit.between
  have hfront : q.front = e.address := h.front
  have hne : e.address ≠ 0 := h.ne_zero (by simp)
  have hdata : q.data e.address = some e.data := h.data e (by simp)
  have hprev : q.prev e.address = 0 := hb.prev_eq_zero.mpr rfl
  have hpop : q.popFront = some ({ q with
      front := q.next e.address
      back := if q.next e.address = 0 then 0 else q.back
      length := signed (q.length - 1)
      data := Function.update q.data e.address none
      prev := relink q.prev (q.next e.address) 0
      deleted := q.deleted ++ [e.address] }, some e.data) := by
    by_cases hlast : q.next e.address = 0
    · simp [NodeQueue.popFront, NodeQueue.getNext, NodeQueue.delete, relink, hfront, hne, hdata,
        hlast]
    · have hsome := hb.next_isSome hlast
      simp [NodeQueue.popFront, NodeQueue.getNext, NodeQueue.setPrev, NodeQueue.delete, relink,
        hfront, hne, hdata, hlast, hsome]
  refine ⟨_, hpop, ?_, rfl, rfl, rfl⟩
  refine hsplit.linkOut ?_ ?_ ?_ ?_ hsplit.data_delete
  · rw [if_pos hprev]
  · rw [hprev]
  · rw [hprev]
    exact relink_null.symm
  · rw [hprev]

/-- `kqueue::pop_back` takes the last element. -/
theorem NodeQueue.Represents.popBack (h : q.Represents (l ++ [e])) :
    ∃ q', q.popBack = some (q', some e.data) ∧ q'.Represents l ∧
      q'.length = signed (q.length - 1) ∧ q'.allocated = q.allocated ∧
      q'.deleted = q.deleted ++ [e.address] := by
  have hb : Between q l e [] := h.between
  have hback : q.back = e.address := by
    rw [h.back]
    simp
  have hne : e.address ≠ 0 := h.ne_zero (by simp)
  have hdata : q.data e.address = some e.data := h.data e (by simp)
  have hnext : q.next e.address = 0 := hb.next_eq_zero.mpr rfl
  have hpop : q.popBack = some ({ q with
      front := if q.prev e.address = 0 then 0 else q.front
      back := q.prev e.address
      length := signed (q.length - 1)
      data := Function.update q.data e.address none
      next := relink q.next (q.prev e.address) 0
      deleted := q.deleted ++ [e.address] }, some e.data) := by
    by_cases hfirst : q.prev e.address = 0
    · simp [NodeQueue.popBack, NodeQueue.getPrev, NodeQueue.delete, relink, hback, hne, hdata,
        hfirst]
    · have hsome := hb.prev_isSome hfirst
      simp [NodeQueue.popBack, NodeQueue.getPrev, NodeQueue.setNext, NodeQueue.delete, relink,
        hback, hne, hdata, hfirst, hsome]
  refine ⟨_, hpop, ?_, rfl, rfl, rfl⟩
  rw [← List.append_nil l]
  refine h.linkOut ?_ ?_ ?_ ?_ h.data_delete
  · rw [hnext]
  · rw [if_pos hnext]
  · rw [hnext]
  · rw [hnext]
    exact relink_null.symm

/-- `kqueue::remove` links an element out and returns an iterator to the one behind it. -/
theorem NodeQueue.Represents.remove (h : q.Represents (l₁ ++ e :: l₂)) :
    ∃ q', q.remove e.address = some (q', (addresses l₂).headD 0) ∧ q'.Represents (l₁ ++ l₂) ∧
      q'.length = q.length ∧ q'.allocated = q.allocated ∧ q'.deleted = q.deleted := by
  have hb := h.between
  have hsome : (q.data e.address).isSome := h.isSome (by simp)
  have hremove : q.remove e.address = some ({ q with
      front := if q.prev e.address = 0 then q.next e.address else q.front
      back := if q.next e.address = 0 then q.prev e.address else q.back
      next := relink q.next (q.prev e.address) (q.next e.address)
      prev := relink q.prev (q.next e.address) (q.prev e.address) }, q.next e.address) := by
    -- Writing to a neighbour does not change the node itself.
    have hnext : relink q.next (q.prev e.address) (q.next e.address) e.address =
        q.next e.address := relink_of_ne hb.prev_ne
    have hprev : relink q.prev (q.next e.address) (q.prev e.address) e.address =
        q.prev e.address := relink_of_ne hb.next_ne
    simp only [NodeQueue.remove, NodeQueue.getPrev, NodeQueue.getNext, hsome, if_true,
      Option.bind_eq_bind, Option.bind_some, setNext_relink hb.prev_isSome, hnext]
    rw [setPrev_relink (q := { q with
      next := relink q.next (q.prev e.address) (q.next e.address) }) hb.next_isSome]
    simp only [hsome, if_true, Option.bind_some, hnext, hprev, hb.eq_front, hb.eq_back]
  rw [← hb.next]
  refine ⟨_, hremove, ?_, rfl, rfl, rfl⟩
  exact h.linkOut rfl rfl rfl rfl fun f _ => rfl

/-! ### Iterating -/

theorem follow_next {p turns : Nat} (hlinked : Seg q.next q.prev p (addresses l) 0)
    (hdata : ∀ e ∈ l, q.data e.address = some e.data) (hne : ∀ e ∈ l, e.address ≠ 0)
    (hturns : l.length < turns) :
    q.follow q.next turns ((addresses l).headD 0) = some l := by
  induction l generalizing p turns with
  | nil =>
    obtain ⟨turns, rfl⟩ : ∃ n, turns = n + 1 := ⟨turns - 1, by omega⟩
    rw [NodeQueue.follow]
    simp
  | cons e l ih =>
    obtain ⟨turns, rfl⟩ : ∃ n, turns = n + 1 := ⟨turns - 1, by omega⟩
    rw [addresses_cons, Links.seg_cons] at hlinked
    obtain ⟨-, hnext, hlinked⟩ := hlinked
    have hrest := ih hlinked (fun f hf => hdata f (List.mem_cons_of_mem _ hf))
      (fun f hf => hne f (List.mem_cons_of_mem _ hf)) (by simpa using hturns)
    rw [addresses_cons, List.headD_cons, NodeQueue.follow, if_neg (hne e (by simp)),
      hdata e (by simp), hnext, hrest]
    rfl

theorem follow_prev {r turns : Nat} (hlinked : Seg q.next q.prev 0 (addresses l) r)
    (hdata : ∀ e ∈ l, q.data e.address = some e.data) (hne : ∀ e ∈ l, e.address ≠ 0)
    (hturns : l.length < turns) :
    q.follow q.prev turns (lastOr 0 (addresses l)) = some l.reverse := by
  induction l using List.reverseRecOn generalizing r turns with
  | nil =>
    obtain ⟨turns, rfl⟩ : ∃ n, turns = n + 1 := ⟨turns - 1, by omega⟩
    rw [NodeQueue.follow]
    simp
  | append_singleton l e ih =>
    obtain ⟨turns, rfl⟩ : ∃ n, turns = n + 1 := ⟨turns - 1, by omega⟩
    rw [addresses_append, addresses_cons] at hlinked
    have hrest := ih (Links.seg_append.mp hlinked).1
      (fun f hf => hdata f (List.mem_append_left _ hf))
      (fun f hf => hne f (List.mem_append_left _ hf)) (by simpa using hturns)
    rw [lastOr_addresses, NodeQueue.follow, if_neg (hne e (by simp)), hdata e (by simp),
      hlinked.prev_eq, hrest, List.reverse_append]
    rfl

/-- A forward iteration visits the elements in order. -/
theorem NodeQueue.Represents.elements (h : q.Represents l) : q.elements = some l := by
  rw [NodeQueue.elements, h.front]
  exact follow_next h.linked h.data (fun e he => h.ne_zero he) h.length_lt

/-- The links back spell the reverse. -/
theorem NodeQueue.Represents.elementsBack (h : q.Represents l) :
    q.elementsBack = some l.reverse := by
  rw [NodeQueue.elementsBack, h.back]
  exact follow_prev h.linked h.data (fun e he => h.ne_zero he) h.length_lt

/-! ### Clearing -/

theorem clearFrom_eq {p turns : Nat} (hlinked : Seg q.next q.prev p (addresses l) 0)
    (hdata : ∀ e ∈ l, (q.data e.address).isSome) (hne : ∀ e ∈ l, e.address ≠ 0)
    (hnodup : (addresses l).Nodup) (hturns : l.length < turns) :
    NodeQueue.clearFrom turns q ((addresses l).headD 0) = some { q with
      data := fun y => if y ∈ addresses l then none else q.data y
      deleted := q.deleted ++ addresses l } := by
  induction l generalizing q p turns with
  | nil =>
    obtain ⟨turns, rfl⟩ : ∃ n, turns = n + 1 := ⟨turns - 1, by omega⟩
    rw [NodeQueue.clearFrom]
    simp
  | cons e l ih =>
    obtain ⟨turns, rfl⟩ : ∃ n, turns = n + 1 := ⟨turns - 1, by omega⟩
    rw [addresses_cons, Links.seg_cons] at hlinked
    rw [addresses_cons, List.nodup_cons] at hnodup
    obtain ⟨-, hnext, hlinked⟩ := hlinked
    obtain ⟨hhead, hnodup⟩ := hnodup
    have hgetNext : q.getNext e.address = some ((addresses l).headD 0) := by
      rw [NodeQueue.getNext, if_pos (hdata e (by simp)), hnext]
    have hdelete : q.delete e.address = some { q with
        data := Function.update q.data e.address none
        deleted := q.deleted ++ [e.address] } := if_pos (hdata e (by simp))
    have hkeep : ∀ f ∈ l, (Function.update q.data e.address none f.address).isSome := by
      intro f hf
      have hne : f.address ≠ e.address := fun heq => hhead (heq ▸ mem_addresses hf)
      rw [Function.update_of_ne hne]
      exact hdata f (List.mem_cons_of_mem _ hf)
    rw [addresses_cons, List.headD_cons, NodeQueue.clearFrom, if_neg (hne e (by simp)), hgetNext]
    simp only [Option.bind_eq_bind, Option.bind_some, hdelete]
    rw [ih (q := { q with
      data := Function.update q.data e.address none
      deleted := q.deleted ++ [e.address] }) hlinked hkeep
      (fun f hf => hne f (List.mem_cons_of_mem _ hf)) hnodup (by simpa using hturns)]
    simp only [List.append_assoc, List.singleton_append, List.mem_cons, Function.update_apply]
    congr 2
    funext y
    by_cases hy : y = e.address <;> simp [hy]

/-- `kqueue::clear` deletes every node, and leaves the pointers to them. -/
theorem NodeQueue.Represents.clear (h : q.Represents l) :
    q.clear = some { q with
      data := fun y => if y ∈ addresses l then none else q.data y
      deleted := q.deleted ++ addresses l } := by
  have hclear := clearFrom_eq h.linked (fun e he => h.isSome he) (fun e he => h.ne_zero he)
    h.nodup h.length_lt
  rwa [← h.front] at hclear

/-! ### Counting -/

/-- The counter, as far as an `int` goes. -/
theorem getLength_eq {n : Nat} (h : q.length = signed n) (hn : n < maxNodes) :
    q.getLength = n := by
  rw [NodeQueue.getLength, h, signed]
  unfold maxNodes at hn
  omega

end WagtailKqueue
