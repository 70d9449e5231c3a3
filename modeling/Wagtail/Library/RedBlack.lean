import Mathlib.Data.Nat.Bitwise
import Mathlib.Data.Nat.Log
import Mathlib.Order.Lattice
import Mathlib.Tactic.Tauto

/-!
# Red-black trees, seen from a node

Binary trees with coloured and labelled nodes. The place of a node is the path
from it up to the root, so that a rotation or a change of colour is local to a
tree and a path. Then the order of a search tree, with the place that an
insertion descends to and the node that a search finds, and last when a tree is
a red-black tree, and how high it is.
-/
namespace RedBlack

inductive Side where
  | left
  | right
  deriving DecidableEq, Repr

def Side.other : Side → Side
  | .left => .right
  | .right => .left

theorem Side.other_ne (d : Side) : d.other ≠ d := by
  cases d <;> decide

theorem Side.eq_other {d e : Side} (h : d ≠ e) : d = e.other := by
  cases d <;> cases e <;> first | rfl | exact absurd rfl h

theorem Side.eq_right {d : Side} (h : d ≠ .left) : d = .right := by
  cases d with
  | left => exact absurd rfl h
  | right => rfl

inductive Color where
  | red
  | black
  deriving DecidableEq, Repr

theorem Color.eq_red {c : Color} (h : c ≠ .black) : c = .red := by
  cases c with
  | red => rfl
  | black => exact absurd rfl h

theorem Color.eq_black {c : Color} (h : c ≠ .red) : c = .black := by
  cases c with
  | red => exact absurd rfl h
  | black => rfl

inductive RbTree (α : Type) where
  | nil
  | node (left : RbTree α) (color : Color) (label : α) (right : RbTree α)
  deriving DecidableEq

variable {α κ : Type} {s t l r : RbTree α} {c : Color} {x : α} {d : Side}

instance (t : RbTree α) : Decidable (t = .nil) :=
  match t with
  | .nil => isTrue rfl
  | .node .. => isFalse nofun

namespace RbTree

/-- The labels from left to right. -/
def toList : RbTree α → List α
  | nil => []
  | node l _ x r => l.toList ++ x :: r.toList

def size : RbTree α → Nat
  | nil => 0
  | node l _ _ r => l.size + r.size + 1

def height : RbTree α → Nat
  | nil => 0
  | node l _ _ r => max l.height r.height + 1

/-- The colour of the root; a missing tree is black. -/
def color : RbTree α → Color
  | nil => .black
  | node _ c _ _ => c

/-- The root turned black. -/
def blacken : RbTree α → RbTree α
  | nil => nil
  | node l _ x r => node l .black x r

@[simp] theorem toList_blacken (t : RbTree α) : t.blacken.toList = t.toList := by
  cases t <;> rfl

/-- The subtree on a side. -/
def child : RbTree α → Side → RbTree α
  | nil, _ => nil
  | node l _ _ _, .left => l
  | node _ _ _ r, .right => r

@[simp] theorem blacken_eq_nil : t.blacken = .nil ↔ t = .nil := by
  cases t <;> simp [blacken]

theorem height_le_size (t : RbTree α) : t.height ≤ t.size := by
  induction t with
  | nil => exact le_refl _
  | node l c x r ihl ihr =>
    simp only [height, size]
    omega

theorem length_toList (t : RbTree α) : t.toList.length = t.size := by
  induction t with
  | nil => rfl
  | node l c x r ihl ihr =>
    simp only [toList, size, List.length_append, List.length_cons, ihl, ihr]
    omega

end RbTree

open RbTree

/-- A node with `s` on the given side of it, and `t` on the other one. -/
def join : Side → RbTree α → Color → α → RbTree α → RbTree α
  | .left, s, c, x, t => .node s c x t
  | .right, s, c, x, t => .node t c x s

theorem join_other (d : Side) (s : RbTree α) (c : Color) (x : α) (t : RbTree α) :
    join d.other s c x t = join d t c x s := by
  cases d <;> rfl

theorem exists_eq_join (d : Side) (h : t ≠ .nil) : ∃ s u c x, t = join d s c x u := by
  cases t with
  | nil => exact absurd rfl h
  | node l c x r =>
    cases d with
    | left => exact ⟨l, r, c, x, rfl⟩
    | right => exact ⟨r, l, c, x, rfl⟩

@[simp] theorem join_ne_nil : join d s c x t ≠ .nil := by
  cases d <;> simp [join]

@[simp] theorem color_join : (join d s c x t).color = c := by
  cases d <;> rfl

@[simp] theorem child_join : (join d s c x t).child d = s := by
  cases d <;> rfl

@[simp] theorem child_other_join : (join d s c x t).child d.other = t := by
  cases d <;> rfl

theorem perm_join (d : Side) (s : RbTree α) (c : Color) (x : α) (t : RbTree α) :
    (join d s c x t).toList.Perm (x :: (s.toList ++ t.toList)) := by
  cases d with
  | left => exact List.perm_middle
  | right => exact List.perm_middle.trans (List.Perm.cons _ List.perm_append_comm)

/-! ## Places in a tree -/

/-- A node above a place: the side on which the place lies, and what else there is. -/
structure Frame (α : Type) where
  side : Side
  color : Color
  label : α
  sibling : RbTree α
  deriving DecidableEq

/-- The nodes above a place, from its parent up to the root. -/
abbrev Path (α : Type) := List (Frame α)

def Frame.fill (f : Frame α) (t : RbTree α) : RbTree α := join f.side t f.color f.label f.sibling

/-- The whole tree, with `t` in this place. -/
def plug : RbTree α → Path α → RbTree α
  | t, [] => t
  | t, f :: path => plug (f.fill t) path

variable {f g : Frame α} {path : Path α}

@[simp] theorem plug_nil : plug t [] = t := rfl
@[simp] theorem plug_cons : plug t (f :: path) = plug (f.fill t) path := rfl

theorem plug_ne_nil (h : t ≠ .nil) : plug t path ≠ .nil := by
  induction path generalizing t with
  | nil => exact h
  | cons f path ih => exact ih join_ne_nil

theorem plug_append (t : RbTree α) (path path' : Path α) :
    plug t (path ++ path') = plug (plug t path) path' := by
  induction path generalizing t with
  | nil => rfl
  | cons f path ih => exact ih _

/-- Every label is that of a node at some place. -/
theorem exists_place (h : x ∈ t.toList) : ∃ l c r path, t = plug (.node l c x r) path := by
  induction t with
  | nil => simp [toList] at h
  | node l c y r ihl ihr =>
    rw [toList, List.mem_append, List.mem_cons] at h
    obtain h | rfl | h := h
    · obtain ⟨l', c', r', path, rfl⟩ := ihl h
      exact ⟨l', c', r', path ++ [⟨.left, c, y, r⟩], by rw [plug_append]; rfl⟩
    · exact ⟨l, c, r, [], rfl⟩
    · obtain ⟨l', c', r', path, rfl⟩ := ihr h
      exact ⟨l', c', r', path ++ [⟨.right, c, y, l⟩], by rw [plug_append]; rfl⟩

/-- Looking at the sibling instead. -/
theorem fill_sibling (f : Frame α) (t : RbTree α) :
    f.fill t = (⟨f.side.other, f.color, f.label, t⟩ : Frame α).fill f.sibling :=
  (join_other f.side f.sibling f.color f.label t).symm

def Frame.before (f : Frame α) : List α :=
  match f.side with
  | .left => []
  | .right => f.sibling.toList ++ [f.label]

def Frame.after (f : Frame α) : List α :=
  match f.side with
  | .left => f.label :: f.sibling.toList
  | .right => []

/-- The labels to the left of a place. -/
def before : Path α → List α
  | [] => []
  | f :: path => before path ++ f.before

/-- The labels to the right of a place. -/
def after : Path α → List α
  | [] => []
  | f :: path => f.after ++ after path

theorem toList_fill (f : Frame α) (t : RbTree α) :
    (f.fill t).toList = f.before ++ t.toList ++ f.after := by
  obtain ⟨d, c, x, s⟩ := f
  cases d <;> simp [Frame.fill, Frame.before, Frame.after, join, toList]

theorem toList_plug (t : RbTree α) (path : Path α) :
    (plug t path).toList = before path ++ t.toList ++ after path := by
  induction path generalizing t with
  | nil => simp [before, after]
  | cons f path ih => simp [ih, toList_fill, before, after]

/-- The labels of the path and of what hangs off it. -/
def labels : Path α → List α
  | [] => []
  | f :: path => f.label :: (f.sibling.toList ++ labels path)

theorem perm_plug (t : RbTree α) (path : Path α) :
    (plug t path).toList.Perm (t.toList ++ labels path) := by
  induction path generalizing t with
  | nil => simp [labels]
  | cons f path ih =>
    have hfill := (perm_join f.side t f.color f.label f.sibling).append_right (labels path)
    have hmiddle : (f.label :: (t.toList ++ f.sibling.toList) ++ labels path).Perm
        (t.toList ++ labels (f :: path)) := by
      simpa [labels] using List.perm_middle.symm
    exact (ih _).trans (hfill.trans hmiddle)

theorem length_le_labels (path : Path α) : path.length ≤ (labels path).length := by
  induction path with
  | nil => simp
  | cons f path ih =>
    simp only [labels, List.length_cons, List.length_append]
    omega

theorem toList_plug_congr (h : s.toList = t.toList) (path : Path α) :
    (plug s path).toList = (plug t path).toList := by
  rw [toList_plug, toList_plug, h]

theorem toList_join_congr {s' t' : RbTree α} (c' : Color) (hs : s.toList = s'.toList)
    (ht : t.toList = t'.toList) : (join d s c x t).toList = (join d s' c' x t').toList := by
  cases d <;> simp [join, toList, hs, ht]

/-- A rotation keeps the order of the labels, whatever the colours become. -/
theorem toList_rotate (d : Side) (s t u : RbTree α) (x y : α) (c₁ c₂ c₃ c₄ : Color) :
    (join d s c₁ x (join d t c₂ y u)).toList = (join d (join d s c₃ x t) c₄ y u).toList := by
  cases d <;> simp [join, toList]

/-! ## Search trees -/

section Search

variable [LinearOrder κ] {key : α → κ} {k : κ}

/-- The keys do not decrease from left to right. Equal ones may be on either side. -/
def Ordered (key : α → κ) (t : RbTree α) : Prop := t.toList.Pairwise fun x y => key x ≤ key y

theorem ordered_node : Ordered key (.node l c x r) ↔
    Ordered key l ∧ Ordered key r ∧ (∀ y ∈ l.toList, key y ≤ key x) ∧
      ∀ y ∈ r.toList, key x ≤ key y := by
  simp only [Ordered, toList, List.pairwise_append, List.pairwise_cons, List.mem_cons]
  constructor
  · rintro ⟨hl, ⟨hx, hr⟩, hlr⟩
    exact ⟨hl, hr, fun y hy => hlr y hy x (.inl rfl), hx⟩
  · rintro ⟨hl, hr, hx, hx'⟩
    refine ⟨hl, ⟨hx', hr⟩, fun y hy z hz => ?_⟩
    cases hz with
    | inl hz => exact hz ▸ hx y hy
    | inr hz => exact le_trans (hx y hy) (hx' z hz)

/-- The place of a new key: to the right of the keys that are equal to it. -/
def descend (key : α → κ) (k : κ) : RbTree α → Path α → Path α
  | .nil, path => path
  | .node l c x r, path =>
    if k < key x then descend key k l (⟨.left, c, x, r⟩ :: path)
    else descend key k r (⟨.right, c, x, l⟩ :: path)

/-- On which side of its parent the place is. -/
theorem side_descend {t : RbTree α} {path : Path α}
    (h : ∀ f ∈ path, f.side = .left ↔ k < key f.label) :
    ∀ f ∈ descend key k t path, f.side = .left ↔ k < key f.label := by
  induction t generalizing path with
  | nil => exact h
  | node l c x r ihl ihr =>
    rw [descend]
    split
    next hlt => exact ihl (List.forall_mem_cons.mpr ⟨by simp [hlt], h⟩)
    next hge => exact ihr (List.forall_mem_cons.mpr ⟨by simp [hge], h⟩)

theorem plug_descend (key : α → κ) (k : κ) (t : RbTree α) (path : Path α) :
    plug .nil (descend key k t path) = plug t path := by
  induction t generalizing path with
  | nil => rfl
  | node l c x r ihl ihr =>
    rw [descend]
    split
    · rw [ihl]; rfl
    · rw [ihr]; rfl

theorem descend_between (path : Path α) (ht : Ordered key t)
    (hbefore : ∀ y ∈ before path, key y ≤ k) (hafter : ∀ y ∈ after path, k < key y) :
    (∀ y ∈ before (descend key k t path), key y ≤ k) ∧
      ∀ y ∈ after (descend key k t path), k < key y := by
  induction t generalizing path with
  | nil => exact ⟨hbefore, hafter⟩
  | node l c x r ihl ihr =>
    obtain ⟨hl, hr, hlx, hxr⟩ := ordered_node.mp ht
    rw [descend]
    split
    next hlt =>
      apply ihl _ hl
      · simpa [before, Frame.before] using hbefore
      · intro y hy
        simp only [after, Frame.after, List.cons_append, List.mem_cons, List.mem_append] at hy
        obtain rfl | hy | hy := hy
        · exact hlt
        · exact lt_of_lt_of_le hlt (hxr y hy)
        · exact hafter y hy
    next hge =>
      have hle := not_lt.mp hge
      apply ihr _ hr
      · intro y hy
        simp only [before, Frame.before, List.mem_append, List.mem_singleton] at hy
        obtain hy | hy | rfl := hy
        · exact hbefore y hy
        · exact le_trans (hlx y hy) hle
        · exact hle
      · simpa [after, Frame.after] using hafter

/-- The labels of a tree in which a new one is put in its place. -/
theorem toList_insert (key : α → κ) (c : Color) (x : α) (t : RbTree α) :
    ∃ xs ys, t.toList = xs ++ ys ∧
      (plug (.node .nil c x .nil) (descend key (key x) t [])).toList = xs ++ x :: ys ∧
      (Ordered key t → (∀ y ∈ xs, key y ≤ key x) ∧ ∀ y ∈ ys, key x ≤ key y) := by
  refine ⟨before (descend key (key x) t []), after (descend key (key x) t []), ?_, ?_, ?_⟩
  · have hplug := plug_descend key (key x) t []
    rw [plug_nil] at hplug
    conv_lhs => rw [← hplug]
    simp [toList_plug, toList]
  · simp [toList_plug, toList]
  · intro ht
    obtain ⟨hb, ha⟩ := descend_between (k := key x) [] ht (by simp [before]) (by simp [after])
    exact ⟨hb, fun y hy => le_of_lt (ha y hy)⟩

theorem perm_insert (key : α → κ) (c : Color) (x : α) (t : RbTree α) :
    (plug (.node .nil c x .nil) (descend key (key x) t [])).toList.Perm (x :: t.toList) := by
  obtain ⟨xs, ys, ht, hnew, -⟩ := toList_insert key c x t
  rw [ht, hnew]
  exact List.perm_middle

theorem ordered_insert (c : Color) (x : α) (ht : Ordered key t) :
    Ordered key (plug (.node .nil c x .nil) (descend key (key x) t [])) := by
  obtain ⟨xs, ys, hlist, hnew, hplace⟩ := toList_insert key c x t
  obtain ⟨hxs, hys⟩ := hplace ht
  rw [Ordered, hlist, List.pairwise_append] at ht
  rw [Ordered, hnew, List.pairwise_append, List.pairwise_cons]
  refine ⟨ht.1, ⟨hys, ht.2.1⟩, fun y hy z hz => ?_⟩
  cases List.mem_cons.mp hz with
  | inl hz => exact hz ▸ hxs y hy
  | inr hz => exact ht.2.2 y hy z hz

/-- The node that a search for the key ends at. -/
def find (key : α → κ) (k : κ) : RbTree α → Option α
  | .nil => none
  | .node l _ x r =>
    if k = key x then some x else if k < key x then find key k l else find key k r

theorem find_some (h : find key k t = some x) : x ∈ t.toList ∧ key x = k := by
  induction t with
  | nil => cases h
  | node l c y r ihl ihr =>
    rw [find] at h
    split_ifs at h with heq hlt
    · obtain rfl := Option.some.inj h
      exact ⟨by simp [toList], heq.symm⟩
    · obtain ⟨hmem, hkey⟩ := ihl h
      exact ⟨by simp [toList, hmem], hkey⟩
    · obtain ⟨hmem, hkey⟩ := ihr h
      exact ⟨by simp [toList, hmem], hkey⟩

theorem find_none (ht : Ordered key t) (h : find key k t = none) : ∀ y ∈ t.toList, key y ≠ k := by
  induction t with
  | nil => simp [toList]
  | node l c x r ihl ihr =>
    obtain ⟨hl, hr, hlx, hxr⟩ := ordered_node.mp ht
    rw [find] at h
    intro y hy
    simp only [toList, List.mem_append, List.mem_cons] at hy
    split_ifs at h with heq hlt
    · obtain hy | rfl | hy := hy
      · exact ihl hl h y hy
      · exact Ne.symm heq
      · exact ne_of_gt (lt_of_lt_of_le hlt (hxr y hy))
    · have hgt := lt_of_le_of_ne (not_lt.mp hlt) (Ne.symm heq)
      obtain hy | rfl | hy := hy
      · exact ne_of_lt (lt_of_le_of_lt (hlx y hy) hgt)
      · exact Ne.symm heq
      · exact ihr hr h y hy

end Search

/-! ## Red-black trees -/

/-- No red node has a red child. -/
def Parted : RbTree α → Prop
  | .nil => True
  | .node l c _ r => (c = .red → l.color = .black ∧ r.color = .black) ∧ Parted l ∧ Parted r

def Color.blacks : Color → Nat
  | .red => 0
  | .black => 1

/-- Every path from the root to a missing child has this number of black nodes. -/
def Blacks : RbTree α → Nat → Prop
  | .nil, n => n = 0
  | .node l c _ r, n => ∃ m, n = m + c.blacks ∧ Blacks l m ∧ Blacks r m

structure Valid (t : RbTree α) : Prop where
  root : t.color = .black
  parted : Parted t
  blacks : ∃ n, Blacks t n

@[simp] theorem parted_join : Parted (join d s c x t) ↔
    (c = .red → s.color = .black ∧ t.color = .black) ∧ Parted s ∧ Parted t := by
  cases d with
  | left => rfl
  | right => simp only [join, Parted]; tauto

theorem blacks_join {n : Nat} : Blacks (join d s c x t) n ↔
    ∃ m, n = m + c.blacks ∧ Blacks s m ∧ Blacks t m := by
  cases d with
  | left => rfl
  | right => simp only [join, Blacks, and_comm]

theorem Blacks.unique {n m : Nat} (h : Blacks t n) (h' : Blacks t m) : n = m := by
  induction t generalizing n m with
  | nil => exact h.trans h'.symm
  | node l c x r ihl ihr =>
    obtain ⟨i, rfl, hl, -⟩ := h
    obtain ⟨j, rfl, hl', -⟩ := h'
    rw [ihl hl hl']

/-- The path has room for a tree whose root has this colour. -/
def PartedPath : Color → Path α → Prop
  | _, [] => True
  | c, f :: path => (f.color = .red → c = .black ∧ f.sibling.color = .black) ∧ Parted f.sibling ∧
      PartedPath f.color path

/-- The path has room for a tree with this number of black nodes on its paths. -/
def BlacksPath : Nat → Path α → Prop
  | _, [] => True
  | n, f :: path => Blacks f.sibling n ∧ BlacksPath (n + f.color.blacks) path

/-- The colour of the root above a place. -/
def rootColor : Color → Path α → Color
  | c, [] => c
  | _, f :: path => rootColor f.color path

theorem color_plug : (plug t path).color = rootColor t.color path := by
  induction path generalizing t with
  | nil => rfl
  | cons f path ih => rw [plug_cons, ih, Frame.fill, color_join, rootColor]

theorem Parted.blacken (h : Parted t) : Parted t.blacken := by
  cases t with
  | nil => exact h
  | node l c x r => exact ⟨nofun, h.2⟩

theorem blacks_blacken : (∃ n, Blacks t.blacken n) ↔ ∃ n, Blacks t n := by
  cases t with
  | nil => rfl
  | node l c x r =>
    constructor
    · rintro ⟨_, m, rfl, hl, hr⟩
      exact ⟨_, m, rfl, hl, hr⟩
    · rintro ⟨_, m, rfl, hl, hr⟩
      exact ⟨_, m, rfl, hl, hr⟩

theorem Blacks.blacken {n : Nat} (h : Blacks t n) (hred : t.color = .red) :
    Blacks t.blacken (n + 1) := by
  cases t with
  | nil => cases hred
  | node l c x r =>
    obtain rfl : c = .red := hred
    exact h.imp fun m hm => ⟨by rw [hm.1]; rfl, hm.2⟩

theorem color_blacken : t.blacken.color = .black := by
  cases t <;> rfl

theorem parted_plug : Parted (plug t path) ↔ Parted t ∧ PartedPath t.color path := by
  induction path generalizing t with
  | nil => simp [PartedPath]
  | cons f path ih =>
    simp only [plug_cons, ih, PartedPath, Frame.fill, parted_join, color_join]
    tauto

theorem blacks_plug : (∃ n, Blacks (plug t path) n) ↔ ∃ n, Blacks t n ∧ BlacksPath n path := by
  induction path generalizing t with
  | nil => simp [BlacksPath]
  | cons f path ih =>
    simp only [plug_cons, ih, BlacksPath, Frame.fill, blacks_join]
    constructor
    · rintro ⟨_, ⟨m, rfl, ht, hs⟩, hpath⟩
      exact ⟨m, ht, hs, hpath⟩
    · rintro ⟨m, ht, hs, hpath⟩
      exact ⟨_, ⟨m, rfl, ht, hs⟩, hpath⟩

theorem Blacks.two_pow_le {n : Nat} (h : Blacks t n) : 2 ^ n ≤ t.size + 1 := by
  induction t generalizing n with
  | nil => simp [show n = 0 from h]
  | node l c x r ihl ihr =>
    obtain ⟨m, rfl, hl, hr⟩ := h
    have hl := ihl hl
    have hr := ihr hr
    have hpos := Nat.two_pow_pos m
    cases c with
    | red => simp only [Color.blacks, RbTree.size, Nat.add_zero]; omega
    | black => simp only [Color.blacks, RbTree.size, Nat.pow_succ]; omega

/-- A red root may add one to the height. -/
theorem height_le {n : Nat} (hparted : Parted t) (h : Blacks t n) :
    t.height ≤ 2 * n + 1 - t.color.blacks := by
  induction t generalizing n with
  | nil => simp [RbTree.height]
  | node l c x r ihl ihr =>
    obtain ⟨m, rfl, hl, hr⟩ := h
    obtain ⟨hred, hpl, hpr⟩ := hparted
    have hl := ihl hpl hl
    have hr := ihr hpr hr
    cases c with
    | red =>
      obtain ⟨hlb, hrb⟩ := hred rfl
      rw [hlb] at hl
      rw [hrb] at hr
      simp only [RbTree.height, RbTree.color, Color.blacks] at *
      omega
    | black =>
      simp only [RbTree.height, RbTree.color, Color.blacks] at *
      omega

/-- A red-black tree is balanced. -/
theorem Valid.height_le (h : Valid t) : t.height ≤ 2 * Nat.log 2 (t.size + 1) := by
  obtain ⟨n, hn⟩ := h.blacks
  have hle := RedBlack.height_le h.parted hn
  have hlog : n ≤ Nat.log 2 (t.size + 1) := Nat.le_log_of_pow_le (by decide) hn.two_pow_le
  rw [h.root] at hle
  simp only [Color.blacks] at hle
  omega

end RedBlack
