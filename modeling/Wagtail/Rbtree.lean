import Mathlib.Logic.Function.Basic
import Wagtail.Library.RedBlack

/-!
# The kernel's red-black tree

`rbtree.h`, on nodes in memory. Pointers are 32-bit addresses and null is `0`; a
loop that goes through more nodes than there are addresses never ends.
-/
namespace WagtailRbtree

open RedBlack (Side Color)

variable {K T : Type}

/-- `rbtree::node`. -/
structure Node (K T : Type) where
  key : K
  content : T
  color : Color
  left : Nat
  right : Nat
  parent : Nat
  deriving DecidableEq, Repr

/-- `rbtree`, with the nodes in memory. -/
structure Rbtree (K T : Type) where
  root : Nat
  node : Nat → Option (Node K T)

/-- A tree as it is constructed. -/
def Rbtree.empty : Rbtree K T := ⟨0, fun _ => none⟩

/-- How a call goes wrong: a pointer that leads to no node is used, or a loop does not end. -/
inductive Fault where
  | null
  | endless
  deriving DecidableEq, Repr

abbrev Outcome := Except Fault

/-- More turns than there are nodes. -/
def maxTurns : Nat := 2 ^ 32

/-! ## Access through pointers -/

def Rbtree.get (t : Rbtree K T) (p : Nat) : Outcome (Node K T) :=
  match t.node p with
  | none => .error .null
  | some n => .ok n

def Rbtree.put (t : Rbtree K T) (p : Nat) (n : Node K T) : Rbtree K T :=
  { t with node := Function.update t.node p (some n) }

def Rbtree.modify (t : Rbtree K T) (p : Nat) (f : Node K T → Node K T) : Outcome (Rbtree K T) := do
  let n ← t.get p
  .ok (t.put p (f n))

def Rbtree.setColor (t : Rbtree K T) (p : Nat) (color : Color) : Outcome (Rbtree K T) :=
  t.modify p fun n => { n with color }

def Rbtree.setParent (t : Rbtree K T) (p parent : Nat) : Outcome (Rbtree K T) :=
  t.modify p fun n => { n with parent }

/-- `left` or `right`. -/
def Node.child (n : Node K T) : Side → Nat
  | .left => n.left
  | .right => n.right

def Node.withChild (n : Node K T) (side : Side) (child : Nat) : Node K T :=
  match side with
  | .left => { n with left := child }
  | .right => { n with right := child }

def Rbtree.setChild (t : Rbtree K T) (p : Nat) (side : Side) (child : Nat) : Outcome (Rbtree K T) :=
  t.modify p fun n => n.withChild side child

/-- `if(p != nullptr)` before a change. -/
def Rbtree.unlessNull (t : Rbtree K T) (p : Nat) (change : Rbtree K T → Outcome (Rbtree K T)) :
    Outcome (Rbtree K T) :=
  if p = 0 then .ok t else change t

/-- `p != nullptr && p->color == color`. -/
def Rbtree.hasColor (t : Rbtree K T) (p : Nat) (color : Color) : Outcome Bool :=
  if p = 0 then .ok false
  else do
    let n ← t.get p
    .ok (n.color == color)

/-! ## Rotations -/

/-- What points to `x` from above is made to point to `y`. -/
def Rbtree.replaceChild (t : Rbtree K T) (parent x y : Nat) : Outcome (Rbtree K T) :=
  if parent = 0 then .ok { t with root := y }
  else do
    let n ← t.get parent
    if x = n.left then t.setChild parent .left y
    else t.setChild parent .right y

/-- The rotation that takes `x` down to this side. -/
def rotate (side : Side) (t : Rbtree K T) (x : Nat) : Outcome (Rbtree K T) := do
  let y := (← t.get x).child side.other
  let inner := (← t.get y).child side
  let t ← t.setChild x side.other inner
  let t ← t.unlessNull inner (·.setParent inner x)
  let parent := (← t.get x).parent
  let t ← t.setParent y parent
  let t ← t.replaceChild parent x y
  let t ← t.setChild y side x
  t.setParent x y

/-- `rbtree::left_rotate`. -/
def leftRotate (t : Rbtree K T) (x : Nat) : Outcome (Rbtree K T) := rotate .left t x

/-- `rbtree::right_rotate`. -/
def rightRotate (t : Rbtree K T) (x : Nat) : Outcome (Rbtree K T) := rotate .right t x

/-! ## Insertion -/

/-- The assignment to `y->parent->parent->color`, where there is such a node. -/
def Rbtree.reddenAbove (t : Rbtree K T) (y : Nat) : Outcome (Rbtree K T) :=
  t.unlessNull y fun t => do
    let grand := (← t.get y).parent
    t.unlessNull grand fun t => do
      let top := (← t.get grand).parent
      t.unlessNull top (·.setColor top .red)

/-- The turn of the loop of `insertion_fixup` for a red uncle `y`, and the node it goes on with. -/
def recolor (t : Rbtree K T) (n y : Nat) : Outcome (Rbtree K T × Nat) := do
  let t ← t.setColor (← t.get n).parent .black
  let t ← t.unlessNull y (·.setColor y .black)
  let t ← t.reddenAbove y
  .ok (t, (← t.get (← t.get n).parent).parent)

/-- The parent of `n` is made black and its grandparent red, and takes its place. -/
def lift (side : Side) (t : Rbtree K T) (n : Nat) : Outcome (Rbtree K T) := do
  let parent := (← t.get n).parent
  let t ← t.setColor parent .black
  let grand := (← t.get parent).parent
  let t ← t.setColor grand .red
  rotate side.other t grand

/-- The turn of the loop for an uncle that is not red, when the parent of `n` is the child of
its own parent on this side, and the node it goes on with. -/
def rotateUp (side : Side) (t : Rbtree K T) (n : Nat) : Outcome (Rbtree K T × Nat) := do
  let parent := (← t.get n).parent
  let p ← t.get parent
  if n = p.child side.other then do
    let t ← rotate side t parent
    .ok (← lift side t parent, parent)
  else do
    .ok (← lift side t n, n)

/-- One turn of the loop of `insertion_fixup`, or `none` when its condition fails. Only the
second branch asks whether there is an uncle. -/
def fixupTurn (t : Rbtree K T) (n : Nat) : Outcome (Option (Rbtree K T × Nat)) :=
  if n = t.root then .ok none
  else do
    let node ← t.get n
    let parent ← t.get node.parent
    if parent.parent = 0 then .ok none
    else if parent.color ≠ .red then .ok none
    else do
      let grand ← t.get parent.parent
      if node.parent = grand.left then do
        let y := grand.right
        let uncle ← t.get y
        let next ← (if uncle.color = .red then recolor t n y else rotateUp .left t n)
        .ok (some next)
      else do
        let y := grand.left
        let red ← t.hasColor y .red
        let next ← (if red then recolor t n y else rotateUp .right t n)
        .ok (some next)

def fixupLoop (t : Rbtree K T) : Nat → Nat → Outcome (Rbtree K T)
  | 0, _ => .error .endless
  | turns + 1, n => do
    match ← fixupTurn t n with
    | none => .ok t
    | some (t, n) => fixupLoop t turns n

/-- `rbtree::insertion_fixup`. -/
def insertionFixup (t : Rbtree K T) (n : Nat) : Outcome (Rbtree K T) := do
  let parent := (← t.get n).parent
  let done ← t.hasColor parent .black
  if done then .ok t
  else do
    let t ← fixupLoop t maxTurns n
    t.setColor t.root .black

section Search

variable [LinearOrder K]

/-- The loop of `insert` that looks for the parent of the new node. -/
def findParent (t : Rbtree K T) (key : K) : Nat → Nat → Nat → Outcome Nat
  | 0, _, _ => .error .endless
  | turns + 1, current, parent =>
    if current = 0 then .ok parent
    else do
      let n ← t.get current
      findParent t key turns (if key < n.key then n.left else n.right) current

/-- The new node becomes a child of the parent. -/
def Rbtree.attach (t : Rbtree K T) (key : K) (parent new : Nat) : Outcome (Rbtree K T) :=
  if parent = 0 then .ok { t with root := new }
  else do
    let n ← t.get parent
    if key < n.key then t.setChild parent .left new
    else t.setChild parent .right new

/-- `rbtree::insert`; `new` is the address of the new node. -/
def insert (t : Rbtree K T) (key : K) (data : T) (new : Nat) : Outcome (Rbtree K T) := do
  let parent ← findParent t key maxTurns t.root 0
  let t := t.put new ⟨key, data, .red, 0, 0, parent⟩
  let t ← t.attach key parent new
  insertionFixup t new

/-- The loop of `rbtree::find_node`. -/
def findFrom (t : Rbtree K T) (key : K) : Nat → Nat → Outcome Nat
  | 0, _ => .error .endless
  | turns + 1, current =>
    if current = 0 then .ok 0
    else do
      let n ← t.get current
      if key = n.key then .ok current
      else findFrom t key turns (if key < n.key then n.left else n.right)

/-- `rbtree::find_node`. -/
def findNode (t : Rbtree K T) (key : K) : Outcome Nat := findFrom t key maxTurns t.root

/-- `rbtree::get_value`: whether the key was found, and what is in `value_out` then. -/
def getValue (t : Rbtree K T) (key : K) (valueOut : T) : Outcome (Bool × T) := do
  let n ← findNode t key
  if n = 0 then .ok (false, valueOut)
  else do .ok (true, (← t.get n).content)

/-- `rbtree::key_exists`. -/
def keyExists (t : Rbtree K T) (key : K) : Outcome Bool := do
  .ok ((← findNode t key) != 0)

end Search

end WagtailRbtree
