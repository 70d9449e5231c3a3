import Wagtail.Kqueue
import Wagtail.KqueueNodes

/-!
# Calls of kernel queues

Sequences of calls on a queue whose nodes are in memory. Without `clear` they act
on a double-ended list. The counter and the nodes are accounted for as long as
nothing is removed, and `clear` only works on an empty queue.
-/
namespace WagtailKqueue

open Word (signed signed_succ signed_pred)

variable {α : Type}

/-- A call of an operation. A push comes with the address that the allocator gives, and a removal
with the node of its iterator. -/
inductive Call (α : Type) where
  | pushFront (address : Nat) (data : α)
  | pushBack (address : Nat) (data : α)
  | popFront
  | popBack
  | remove (iter : Nat)
  | clear
  deriving DecidableEq, Repr

inductive Result (α : Type) where
  | done
  | popped (element : Option α)
  | iterator (n : Nat)
  deriving DecidableEq, Repr

def NodeQueue.perform (q : NodeQueue α) : Call α → Option (NodeQueue α × Result α)
  | .pushFront address data => (q.pushFront address data).map fun q => (q, .done)
  | .pushBack address data => (q.pushBack address data).map fun q => (q, .done)
  | .popFront => q.popFront.map fun (q, element) => (q, .popped element)
  | .popBack => q.popBack.map fun (q, element) => (q, .popped element)
  | .remove iter => (q.remove iter).map fun (q, n) => (q, .iterator n)
  | .clear => q.clear.map fun q => (q, .done)

def NodeQueue.performAll (q : NodeQueue α) : List (Call α) → Option (NodeQueue α × List (Result α))
  | [] => some (q, [])
  | c :: calls => do
    let (q, result) ← q.perform c
    let (q, results) ← q.performAll calls
    some (q, result :: results)

/-- The allocator gives memory that holds no node, and the iterator of a removal leads to an
element of the queue. -/
def NodeQueue.Allows (q : NodeQueue α) : Call α → Prop
  | .pushFront address _ | .pushBack address _ =>
    (0 < address ∧ address < 2 ^ 32) ∧ q.data address = none
  | .remove iter => ∃ l, q.elements = some l ∧ iter ∈ addresses l
  | _ => True

def NodeQueue.AllowsAll (q : NodeQueue α) : List (Call α) → Prop
  | [] => True
  | c :: calls => q.Allows c ∧ ∀ q' result, q.perform c = some (q', result) → q'.AllowsAll calls

/-! ## Double-ended lists -/

/-- The address of the element behind the one at an address; 0 is the end. -/
def addressBehind (l : List (Element α)) (iter : Nat) : Nat :=
  (addresses (l.dropWhile (·.address != iter)).tail).headD 0

/-- A call on a double-ended list, and what it returns. -/
def dequeStep (l : List (Element α)) : Call α → List (Element α) × Result α
  | .pushFront address data => (⟨address, data⟩ :: l, .done)
  | .pushBack address data => (l ++ [⟨address, data⟩], .done)
  | .popFront => (l.tail, .popped (l.head?.map Element.data))
  | .popBack => (l.dropLast, .popped (l.getLast?.map Element.data))
  | .remove iter => (l.eraseP (·.address == iter), .iterator (addressBehind l iter))
  | .clear => ([], .done)

def dequeSteps (l : List (Element α)) : List (Call α) → List (Element α) × List (Result α)
  | [] => (l, [])
  | c :: calls =>
    let (l, result) := dequeStep l c
    let (l, results) := dequeSteps l calls
    (l, result :: results)

/-! ## One call -/

/-- The counter counts the elements, and the nodes that have been allocated are the ones deleted
so far and the ones in the queue. -/
structure NodeQueue.Accounts (q : NodeQueue α) (l : List (Element α)) : Prop where
  length : q.length = signed l.length
  nodes : q.allocated.Perm (q.deleted ++ addresses l)

variable {q q' : NodeQueue α} {l : List (Element α)} {c : Call α} {calls : List (Call α)}

theorem NodeQueue.Accounts.push (h : q.Accounts l) {l' : List (Element α)} {a : Nat}
    (hlength : q'.length = signed (q.length + 1)) (hallocated : q'.allocated = q.allocated ++ [a])
    (hdeleted : q'.deleted = q.deleted) (hl : l'.length = l.length + 1)
    (hl' : (addresses l').Perm (addresses l ++ [a])) : q'.Accounts l' where
  length := by
    rw [hlength, h.length, signed_succ, hl]
    rfl
  nodes := by
    rw [hallocated, hdeleted]
    refine (h.nodes.append_right [a]).trans ?_
    rw [List.append_assoc]
    exact hl'.symm.append_left q.deleted

theorem NodeQueue.Accounts.pop (h : q.Accounts l) {l' : List (Element α)} {a : Nat}
    (hlength : q'.length = signed (q.length - 1)) (hallocated : q'.allocated = q.allocated)
    (hdeleted : q'.deleted = q.deleted ++ [a]) (hl : l.length = l'.length + 1)
    (hl' : (addresses l).Perm (a :: addresses l')) : q'.Accounts l' where
  length := by
    rw [hlength, h.length, signed_pred, hl]
    simp
  nodes := by
    rw [hallocated, hdeleted, List.append_assoc]
    exact h.nodes.trans (hl'.append_left q.deleted)

theorem NodeQueue.Represents.eq_of_elements (h : q.Represents l) {l' : List (Element α)}
    (hl' : q.elements = some l') : l = l' := Option.some.inj (h.elements.symm.trans hl')

theorem dequeStep_remove {l₁ l₂ : List (Element α)} {e : Element α}
    (hnodup : (addresses (l₁ ++ e :: l₂)).Nodup) :
    dequeStep (l₁ ++ e :: l₂) (.remove e.address) =
      (l₁ ++ l₂, .iterator ((addresses l₂).headD 0)) := by
  have hleft : ∀ f ∈ l₁, f.address ≠ e.address := by
    rw [addresses_append, addresses_cons] at hnodup
    exact fun f hf => (List.nodup_append.mp hnodup).2.2 _ (mem_addresses hf) _ (by simp)
  have herase : (l₁ ++ e :: l₂).eraseP (·.address == e.address) = l₁ ++ l₂ := by
    rw [List.eraseP_append_right _ (by simpa using hleft)]
    simp
  have hbehind : (l₁ ++ e :: l₂).dropWhile (·.address != e.address) = e :: l₂ := by
    rw [List.dropWhile_append_of_pos (by simpa using hleft)]
    simp
  simp [dequeStep, addressBehind, herase, hbehind]

/-- Every call but `clear` does to the nodes what it does to a double-ended list. Removals leave
the counter, and the other calls keep account. -/
theorem NodeQueue.Represents.perform (h : q.Represents l) (hallows : q.Allows c)
    (hclear : c ≠ .clear) :
    ∃ q', q.perform c = some (q', (dequeStep l c).2) ∧ q'.Represents (dequeStep l c).1 ∧
      ((∀ iter, c ≠ .remove iter) → q.Accounts l → q'.Accounts (dequeStep l c).1) ∧
      ((∃ iter, c = .remove iter) → q'.length = q.length) := by
  cases c with
  | pushFront a x =>
    obtain ⟨q', hpush, hq', hlength, hallocated, hdeleted⟩ := h.pushFront hallows.1 hallows.2 x
    refine ⟨q', by simp [NodeQueue.perform, hpush, dequeStep], hq', fun _ haccounts => ?_, by simp⟩
    exact haccounts.push hlength hallocated hdeleted rfl (List.perm_append_singleton ..).symm
  | pushBack a x =>
    obtain ⟨q', hpush, hq', hlength, hallocated, hdeleted⟩ := h.pushBack hallows.1 hallows.2 x
    refine ⟨q', by simp [NodeQueue.perform, hpush, dequeStep], hq', fun _ haccounts => ?_, by simp⟩
    exact haccounts.push hlength hallocated hdeleted (by simp [dequeStep]) (by simp [dequeStep])
  | popFront =>
    cases l with
    | nil =>
      refine ⟨q, by simp [NodeQueue.perform, (pop_empty h).1, dequeStep], h,
        fun _ haccounts => haccounts, by simp⟩
    | cons e l =>
      obtain ⟨q', hpop, hq', hlength, hallocated, hdeleted⟩ := h.popFront
      refine ⟨q', by simp [NodeQueue.perform, hpop, dequeStep], hq', fun _ haccounts => ?_,
        by simp⟩
      exact haccounts.pop hlength hallocated hdeleted rfl (List.Perm.refl _)
  | popBack =>
    rcases List.eq_nil_or_concat l with rfl | ⟨l, e, rfl⟩
    · refine ⟨q, by simp [NodeQueue.perform, (pop_empty h).2, dequeStep], h,
        fun _ haccounts => haccounts, by simp⟩
    · rw [List.concat_eq_append] at h ⊢
      obtain ⟨q', hpop, hq', hlength, hallocated, hdeleted⟩ := h.popBack
      refine ⟨q', by simp [NodeQueue.perform, hpop, dequeStep], by simpa [dequeStep] using hq',
        fun _ haccounts => ?_, by simp⟩
      exact haccounts.pop hlength hallocated hdeleted (by simp [dequeStep])
        (by simp [dequeStep])
  | remove iter =>
    obtain ⟨l', hl', hmem⟩ := hallows
    obtain rfl : l = l' := h.eq_of_elements hl'
    obtain ⟨e, he, rfl⟩ := List.mem_map.mp hmem
    obtain ⟨l₁, l₂, rfl⟩ := List.append_of_mem he
    obtain ⟨q', hremove, hq', hlength, -, -⟩ := h.remove
    rw [dequeStep_remove h.nodup]
    exact ⟨q', by simp [NodeQueue.perform, hremove], hq', by simp, fun _ => hlength⟩
  | clear => exact absurd rfl hclear

/-! ## Queues as double-ended lists -/

theorem NodeQueue.Represents.performAll (h : q.Represents l) (hallows : q.AllowsAll calls)
    (hclear : ∀ c ∈ calls, c ≠ .clear) :
    ∃ q', q.performAll calls = some (q', (dequeSteps l calls).2) ∧
      q'.Represents (dequeSteps l calls).1 := by
  induction calls generalizing q l with
  | nil => exact ⟨q, rfl, h⟩
  | cons c calls ih =>
    obtain ⟨q₁, hperform, h₁, -, -⟩ := h.perform hallows.1 (hclear c (by simp))
    obtain ⟨q', hrest, hq'⟩ := ih h₁ (hallows.2 _ _ hperform)
      fun c' hc' => hclear c' (List.mem_cons_of_mem _ hc')
    refine ⟨q', ?_, hq'⟩
    rw [NodeQueue.performAll, hperform]
    simp only [Option.bind_eq_bind, Option.bind_some, hrest]
    rfl

/-- On a new queue, calls other than `clear` return what they return on a double-ended list. The
queue then is that list, in both directions, and its pointers are null together when it is empty. -/
theorem newKqueue_refines (data : Nat → Option α) (next prev : Nat → Nat)
    (hallows : (newKqueue data next prev).AllowsAll calls) (hclear : ∀ c ∈ calls, c ≠ .clear) :
    ∃ q, (newKqueue data next prev).performAll calls = some (q, (dequeSteps [] calls).2) ∧
      q.elements = some (dequeSteps [] calls).1 ∧
      q.elementsBack = some (dequeSteps [] calls).1.reverse ∧
      (q.front = 0 ↔ (dequeSteps [] calls).1 = []) ∧
      (q.back = 0 ↔ (dequeSteps [] calls).1 = []) := by
  obtain ⟨q, hperform, hq⟩ :=
    (newKqueue_represents data next prev).performAll hallows hclear
  exact ⟨q, hperform, hq.elements, hq.elementsBack, hq.front_eq_zero, hq.back_eq_zero⟩

/-- Of two elements the first is removed, by its iterator, and the other one popped. -/
theorem newKqueue_refines_remove :
    ∃ q, (newKqueue (fun _ => none) (fun _ => 0) fun _ => 0).performAll
        [.pushBack 16 (1 : Nat), .pushBack 32 2, .remove 16, .popFront] =
          some (q, [.done, .done, .iterator 32, .popped (some 2)]) ∧ q.elements = some [] := by
  have hallows : (newKqueue (fun _ => none) (fun _ => 0) fun _ => 0).AllowsAll
      [.pushBack 16 (1 : Nat), .pushBack 32 2, .remove 16, .popFront] := by
    refine ⟨⟨by decide, rfl⟩, fun q₁ _ h₁ => ?_⟩
    obtain ⟨rfl, -⟩ := Prod.mk.inj (Option.some.inj h₁)
    refine ⟨⟨by decide, rfl⟩, fun q₂ _ h₂ => ?_⟩
    obtain ⟨rfl, -⟩ := Prod.mk.inj (Option.some.inj h₂)
    exact ⟨⟨[⟨16, 1⟩, ⟨32, 2⟩], rfl, by decide⟩, fun _ _ _ => ⟨trivial, fun _ _ _ => trivial⟩⟩
  obtain ⟨q, hq, helements, -⟩ := newKqueue_refines _ _ _ hallows (by decide)
  exact ⟨q, hq, helements⟩

/-! ## Queues as lists of data -/

/-- The nodes hold the data of `k` in order, and the counter that of `k`, as far as an `int`
goes. -/
def NodeQueue.Refines (q : NodeQueue α) (k : Kqueue α) : Prop :=
  ∃ l, q.Represents l ∧ l.map Element.data = k.elements ∧ q.length = signed k.length

variable {k : Kqueue α} {a : Nat}

theorem NodeQueue.Refines.pushFront (h : q.Refines k) (ha : 0 < a ∧ a < 2 ^ 32)
    (hfresh : q.data a = none) (x : α) :
    ∃ q', q.pushFront a x = some q' ∧ q'.Refines (k.pushFront x) := by
  obtain ⟨l, hl, hdata, hcount⟩ := h
  obtain ⟨q', hpush, hq', hlength, -⟩ := hl.pushFront ha hfresh x
  refine ⟨q', hpush, _, hq', by simp [Kqueue.pushFront, hdata], ?_⟩
  rw [hlength, hcount, signed_succ]
  rfl

theorem NodeQueue.Refines.pushBack (h : q.Refines k) (ha : 0 < a ∧ a < 2 ^ 32)
    (hfresh : q.data a = none) (x : α) :
    ∃ q', q.pushBack a x = some q' ∧ q'.Refines (k.pushBack x) := by
  obtain ⟨l, hl, hdata, hcount⟩ := h
  obtain ⟨q', hpush, hq', hlength, -⟩ := hl.pushBack ha hfresh x
  refine ⟨q', hpush, _, hq', by simp [Kqueue.pushBack, hdata], ?_⟩
  rw [hlength, hcount, signed_succ]
  rfl

theorem NodeQueue.Refines.popFront (h : q.Refines k) :
    match k.popFront with
    | none => q.popFront = some (q, none)
    | some (x, k') => ∃ q', q.popFront = some (q', some x) ∧ q'.Refines k' := by
  obtain ⟨l, hl, hdata, hcount⟩ := h
  cases l with
  | nil =>
    rw [Kqueue.popFront, ← hdata]
    exact (pop_empty hl).1
  | cons e l =>
    obtain ⟨q', hpop, hq', hlength, -⟩ := hl.popFront
    rw [Kqueue.popFront, ← hdata]
    refine ⟨q', hpop, l, hq', rfl, ?_⟩
    rw [hlength, hcount, signed_pred]

/-- `remove` with an iterator to the first element that equals `e.data`. -/
theorem NodeQueue.Refines.remove [DecidableEq α] {l₁ l₂ : List (Element α)} {e : Element α}
    (h : q.Represents (l₁ ++ e :: l₂)) (hdata : (l₁ ++ e :: l₂).map Element.data = k.elements)
    (hcount : q.length = signed k.length) (hfirst : e.data ∉ l₁.map Element.data) :
    ∃ q' n, q.remove e.address = some (q', n) ∧ q'.Refines (k.remove e.data) := by
  obtain ⟨q', hremove, hq', hlength, -⟩ := h.remove
  refine ⟨q', _, hremove, _, hq', ?_, hlength.trans hcount⟩
  rw [Kqueue.remove, ← hdata, List.map_append, List.map_append, List.map_cons,
    List.erase_append_right _ hfirst, List.erase_cons_head]

/-! ## What the calls keep account of -/

/-- The length is the number of elements that an iteration visits, and every node that has been
allocated is in the queue or has been deleted, one or the other and once. -/
def NodeQueue.Sound (q : NodeQueue α) : Prop :=
  ∃ l, q.elements = some l ∧ q.getLength = l.length ∧
    q.allocated.Perm (q.deleted ++ addresses l)

/-- A queue that is constructed beside the nodes that are in memory. -/
def NodeQueue.renewed (q : NodeQueue α) : NodeQueue α :=
  { q with front := 0, back := 0, length := 0 }

/-- What calls return, and the length and the elements after them. -/
def NodeQueue.observe (q : NodeQueue α) (calls : List (Call α)) :
    Option (List (Result α) × Nat × Option (List (Element α))) :=
  (q.performAll calls).map fun (q, results) => (results, q.getLength, q.elements)

def NodeQueue.LikeNew (q : NodeQueue α) : Prop :=
  ∀ calls, q.observe calls = q.renewed.observe calls

/-- The queue is sound all along a sequence of calls, and like a new one after `clear`. -/
def NodeQueue.WellBehaved (q : NodeQueue α) : List (Call α) → Prop
  | [] => q.Sound
  | c :: calls => q.Sound ∧ ∃ q' result, q.perform c = some (q', result) ∧
    (c = .clear → q'.LikeNew) ∧ q'.WellBehaved calls

/-- Nothing is removed, and `clear` is only called on an empty queue. -/
def ClearsEmpty : Nat → List (Call α) → Prop
  | _, [] => True
  | n, .pushFront _ _ :: calls | n, .pushBack _ _ :: calls => ClearsEmpty (n + 1) calls
  | n, .popFront :: calls | n, .popBack :: calls => ClearsEmpty (n - 1) calls
  | _, .remove _ :: _ => False
  | n, .clear :: calls => n = 0 ∧ ClearsEmpty n calls

theorem NodeQueue.Represents.sound (h : q.Represents l) (haccounts : q.Accounts l) : q.Sound :=
  ⟨l, h.elements, getLength_eq haccounts.length h.length_lt, haccounts.nodes⟩

theorem NodeQueue.WellBehaved.sound (h : q.WellBehaved calls) : q.Sound := by
  cases calls with
  | nil => exact h
  | cons c calls => exact h.1

/-- On an empty queue there is nothing to clear. -/
theorem NodeQueue.Represents.clear_empty (h : q.Represents []) : q.clear = some q := by
  rw [h.clear]
  simp

theorem NodeQueue.Represents.renewed (h : q.Represents []) (haccounts : q.Accounts []) :
    q.renewed = q := by
  have hlength : q.length = 0 :=
    haccounts.length.trans (Word.signed_natCast (n := 0) (by decide))
  have hfront : q.front = 0 := h.front_eq_zero.mpr rfl
  have hback : q.back = 0 := h.back_eq_zero.mpr rfl
  cases q
  simp_all [NodeQueue.renewed]

/-- After `clear` a queue with elements still points to their nodes, and popping one goes wrong. -/
theorem NodeQueue.Represents.not_likeNew (h : q.Represents l) (hne : l ≠ [])
    (hclear : q.clear = some q') : ¬ q'.LikeNew := by
  intro hlike
  have hfront : q.front ≠ 0 := fun h0 => hne (h.front_eq_zero.mp h0)
  have hfault : q'.popFront = none := by
    obtain ⟨hfront', hdata⟩ : q'.front = q.front ∧ q'.data q.front = none := by
      obtain rfl := Option.some.inj (h.clear.symm.trans hclear)
      exact ⟨rfl, if_pos (h.front_mem hfront)⟩
    simp [NodeQueue.popFront, hfront', hfront, hdata]
  have hpop := hlike [.popFront]
  rw [NodeQueue.observe, NodeQueue.performAll, NodeQueue.perform, hfault] at hpop
  cases hpop

/-- A removal leaves the counter behind. -/
theorem NodeQueue.Represents.not_sound (h : q.Represents l) {l' : List (Element α)}
    (hlength : q.length = signed l'.length) (hl' : l'.length < maxNodes)
    (hne : l'.length ≠ l.length) : ¬ q.Sound := by
  rintro ⟨k, hk, hcount, -⟩
  obtain rfl : l = k := h.eq_of_elements hk
  exact hne ((getLength_eq hlength hl').symm.trans hcount)

theorem wellBehaved_cons {result : Result α} (hsound : q.Sound) (hclear : c ≠ .clear)
    (hperform : q.perform c = some (q', result)) :
    q.WellBehaved (c :: calls) ↔ q'.WellBehaved calls := by
  constructor
  · rintro ⟨-, q'', result', hperform', -, hrest⟩
    obtain ⟨rfl, -⟩ := Prod.mk.inj (Option.some.inj (hperform.symm.trans hperform'))
    exact hrest
  · exact fun hrest => ⟨hsound, q', result, hperform, fun h => absurd h hclear, hrest⟩

theorem NodeQueue.Represents.not_wellBehaved_remove (h : q.Represents l)
    (haccounts : q.Accounts l) {iter : Nat} (hallows : q.Allows (.remove iter)) :
    ¬ q.WellBehaved (.remove iter :: calls) := by
  intro hcalls
  obtain ⟨q', hperform, hq', -, hcounter⟩ := h.perform hallows (by simp)
  obtain ⟨l', hl', hmem⟩ := hallows
  obtain rfl : l = l' := h.eq_of_elements hl'
  obtain ⟨e, he, rfl⟩ := List.mem_map.mp hmem
  have hpos : 0 < l.length := List.length_pos_of_mem he
  have hshorter : l.length ≠ (dequeStep l (.remove e.address)).1.length := by
    rw [dequeStep, List.length_eraseP_of_mem he (by simp)]
    omega
  have hlength : q'.length = signed l.length := (hcounter ⟨_, rfl⟩).trans haccounts.length
  have hrest := (wellBehaved_cons (h.sound haccounts) (by simp) hperform).mp hcalls
  exact hq'.not_sound hlength h.length_lt hshorter hrest.sound

theorem NodeQueue.Represents.not_wellBehaved_clear (h : q.Represents l) (hne : l ≠ []) :
    ¬ q.WellBehaved (.clear :: calls) := by
  rintro ⟨-, q', result, hperform, hlike, -⟩
  obtain ⟨q₁, hq₁, heq⟩ := Option.map_eq_some_iff.mp hperform
  obtain ⟨rfl, -⟩ := Prod.mk.inj heq
  exact h.not_likeNew hne hq₁ (hlike rfl)

theorem NodeQueue.Represents.perform_clear (h : q.Represents []) :
    q.perform .clear = some (q, .done) := by
  rw [NodeQueue.perform, h.clear_empty]
  rfl

theorem NodeQueue.Represents.wellBehaved_clear (h : q.Represents []) (haccounts : q.Accounts []) :
    q.WellBehaved (.clear :: calls) ↔ q.WellBehaved calls := by
  have hlike : q.LikeNew := fun calls => by rw [h.renewed haccounts]
  constructor
  · rintro ⟨-, q', result, hperform, -, hrest⟩
    obtain ⟨rfl, -⟩ := Prod.mk.inj (Option.some.inj (h.perform_clear.symm.trans hperform))
    exact hrest
  · exact fun hrest => ⟨h.sound haccounts, q, .done, h.perform_clear, fun _ => hlike, hrest⟩

theorem clearsEmpty_cons (hclear : c ≠ .clear) (hremove : ∀ iter, c ≠ .remove iter) :
    ClearsEmpty l.length (c :: calls) ↔ ClearsEmpty (dequeStep l c).1.length calls := by
  cases c with
  | remove iter => exact absurd rfl (hremove iter)
  | clear => exact absurd rfl hclear
  | _ => simp [ClearsEmpty, dequeStep]

theorem NodeQueue.Represents.wellBehaved_iff (h : q.Represents l) (haccounts : q.Accounts l)
    (hallows : q.AllowsAll calls) : q.WellBehaved calls ↔ ClearsEmpty l.length calls := by
  induction calls generalizing q l with
  | nil => exact iff_of_true (h.sound haccounts) trivial
  | cons c calls ih =>
    by_cases hremove : ∃ iter, c = .remove iter
    · obtain ⟨iter, rfl⟩ := hremove
      exact iff_of_false (h.not_wellBehaved_remove haccounts hallows.1) id
    by_cases hclear : c = .clear
    · subst hclear
      by_cases hl : l = []
      · subst hl
        rw [h.wellBehaved_clear haccounts, ih h haccounts (hallows.2 _ _ h.perform_clear)]
        exact (and_iff_right rfl).symm
      · exact iff_of_false (h.not_wellBehaved_clear hl) fun hcalls =>
          hl (List.length_eq_zero_iff.mp hcalls.1)
    have hremove := not_exists.mp hremove
    obtain ⟨q', hperform, hq', hkeep, -⟩ := h.perform hallows.1 hclear
    rw [wellBehaved_cons (h.sound haccounts) hclear hperform, clearsEmpty_cons hclear hremove]
    exact ih hq' (hkeep hremove haccounts) (hallows.2 _ _ hperform)

theorem newKqueue_accounts (data : Nat → Option α) (next prev : Nat → Nat) :
    (newKqueue data next prev).Accounts [] where
  length := (Word.signed_natCast (n := 0) (by decide)).symm
  nodes := List.Perm.refl _

/-- A new queue keeps account of its length and its nodes, and is new again after `clear`, exactly
as long as nothing is removed and only an empty queue is cleared. -/
theorem newKqueue_wellBehaved_iff (data : Nat → Option α) (next prev : Nat → Nat)
    (hallows : (newKqueue data next prev).AllowsAll calls) :
    (newKqueue data next prev).WellBehaved calls ↔ ClearsEmpty 0 calls :=
  (newKqueue_represents data next prev).wellBehaved_iff (newKqueue_accounts data next prev) hallows

/-- An element is pushed and popped, and the empty queue is cleared. -/
theorem newKqueue_wellBehaved_push_pop :
    (newKqueue (fun _ => none) (fun _ => 0) fun _ => 0).WellBehaved
      [.pushFront 16 (7 : Nat), .popBack, .clear] := by
  have hallows : (newKqueue (fun _ => none) (fun _ => 0) fun _ => 0).AllowsAll
      [.pushFront 16 (7 : Nat), .popBack, .clear] :=
    ⟨⟨by decide, rfl⟩, fun _ _ _ => ⟨trivial, fun _ _ _ => ⟨trivial, fun _ _ _ => trivial⟩⟩⟩
  exact (newKqueue_wellBehaved_iff _ _ _ hallows).mpr ⟨rfl, trivial⟩

/-- After an element is pushed, the queue is cleared. -/
theorem newKqueue_not_wellBehaved :
    (newKqueue (fun _ => none) (fun _ => 0) fun _ => 0).AllowsAll
        [.pushFront 16 (7 : Nat), .clear] ∧
      ¬ (newKqueue (fun _ => none) (fun _ => 0) fun _ => 0).WellBehaved
        [.pushFront 16 (7 : Nat), .clear] := by
  have hallows : (newKqueue (fun _ => none) (fun _ => 0) fun _ => 0).AllowsAll
      [.pushFront 16 (7 : Nat), .clear] :=
    ⟨⟨by decide, rfl⟩, fun _ _ _ => ⟨trivial, fun _ _ _ => trivial⟩⟩
  refine ⟨hallows, fun h => ?_⟩
  have hclears := ((newKqueue_represents _ _ _).wellBehaved_iff (newKqueue_accounts _ _ _)
    hallows).mp h
  exact absurd hclears.1 (by decide)

end WagtailKqueue
