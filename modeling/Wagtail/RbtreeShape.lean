import Mathlib.Data.List.Nodup
import Wagtail.Library.Runs
import Wagtail.Rbtree

/-!
# The tree that nodes in memory stand for

The nodes of an `rbtree` are linked both ways as a tree is. What the functions do to
the nodes in memory, they do to this tree.
-/
namespace WagtailRbtree

open RedBlack
open Runs (bind_of_ok)

variable {K T : Type}

/-- What a node holds besides its colour and its links, and where it is. -/
structure Item (K T : Type) where
  address : Nat
  key : K
  content : T
  deriving DecidableEq, Repr

/-- The pointer to a tree. -/
def addr : RbTree (Item K T) → Nat
  | .nil => 0
  | .node _ _ x _ => x.address

/-- The pointer to the node above a place. -/
def top : Path (Item K T) → Nat
  | [] => 0
  | f :: _ => f.label.address

/-- The node of an item. The first pointer is that to the child on side `d`. -/
def record (d : Side) (c : Color) (x : Item K T) (child other parent : Nat) : Node K T :=
  match d with
  | .left => ⟨x.key, x.content, c, child, other, parent⟩
  | .right => ⟨x.key, x.content, c, other, child, parent⟩

/-- The nodes of a tree are in memory, and linked to each other and to the parent. -/
def Linked (mem : Nat → Option (Node K T)) : RbTree (Item K T) → Nat → Prop
  | .nil, _ => True
  | .node l c x r, parent => mem x.address = some (record .left c x (addr l) (addr r) parent) ∧
      Linked mem l x.address ∧ Linked mem r x.address

/-- The nodes of a path are in memory, with the pointer `child` to the place. -/
def LinkedPath (mem : Nat → Option (Node K T)) : Nat → Path (Item K T) → Prop
  | _, [] => True
  | child, f :: path =>
    mem f.label.address =
        some (record f.side f.color f.label child (addr f.sibling) (top path)) ∧
      Linked mem f.sibling f.label.address ∧ LinkedPath mem f.label.address path

def addresses (l : List (Item K T)) : List Nat := l.map Item.address

/-- The nodes in memory are those of a tree. -/
structure Represents (t : Rbtree K T) (s : RbTree (Item K T)) : Prop where
  root : t.root = addr s
  linked : Linked t.node s 0
  distinct : (addresses s.toList).Nodup
  bound : ∀ x ∈ s.toList, 0 < x.address ∧ x.address < 2 ^ 32
  owned : ∀ a, t.node a ≠ none → a ∈ addresses s.toList

/-! ## Records and links -/

section Records

variable {d : Side} {c : Color} {x y : Item K T} {a b p q : Nat}

@[simp] theorem record_key : (record d c x a b p).key = x.key := by cases d <;> rfl
@[simp] theorem record_content : (record d c x a b p).content = x.content := by cases d <;> rfl
@[simp] theorem record_color : (record d c x a b p).color = c := by cases d <;> rfl
@[simp] theorem record_parent : (record d c x a b p).parent = p := by cases d <;> rfl
@[simp] theorem record_child : (record d c x a b p).child d = a := by cases d <;> rfl
@[simp] theorem record_child_other : (record d c x a b p).child d.other = b := by cases d <;> rfl

@[simp] theorem record_withChild :
    (record d c x a b p).withChild d q = record d c x q b p := by cases d <;> rfl

@[simp] theorem record_withChild_other :
    (record d c x a b p).withChild d.other q = record d c x a q p := by cases d <;> rfl

@[simp] theorem record_with_color {c' : Color} :
    { record d c x a b p with color := c' } = record d c' x a b p := by cases d <;> rfl

@[simp] theorem record_with_parent :
    { record d c x a b p with parent := q } = record d c x a b q := by cases d <;> rfl

end Records

variable {mem : Nat → Option (Node K T)} {n : Option (Node K T)} {s s' u v w : RbTree (Item K T)}
  {path : Path (Item K T)} {f g : Frame (Item K T)} {c c' : Color} {x y : Item K T}
  {d : Side} {t t' : Rbtree K T} {p q : Nat}

@[simp] theorem addr_join : addr (join d u c x v) = x.address := by
  cases d <;> rfl

@[simp] theorem addr_blacken : addr s.blacken = addr s := by
  cases s <;> rfl

@[simp] theorem addr_fill : addr (f.fill u) = f.label.address := addr_join

theorem addr_plug_congr (h : addr s = addr s') (path : Path (Item K T)) :
    addr (plug s path) = addr (plug s' path) := by
  induction path generalizing s s' with
  | nil => exact h
  | cons f path ih => exact ih (by simp)

theorem linked_join : Linked mem (join d u c x v) p ↔
    mem x.address = some (record d c x (addr u) (addr v) p) ∧ Linked mem u x.address ∧
      Linked mem v x.address := by
  cases d with
  | left => rfl
  | right => simp only [join, Linked, record, and_comm (a := Linked mem v _)]

theorem linked_plug :
    Linked mem (plug s path) 0 ↔ Linked mem s (top path) ∧ LinkedPath mem (addr s) path := by
  induction path generalizing s with
  | nil => simp [top, LinkedPath]
  | cons f path ih =>
    rw [plug_cons, ih, Frame.fill, linked_join, addr_join, LinkedPath, top]
    tauto

/-- A tree does not depend on other places in memory. -/
theorem Linked.update (h : Linked mem s p) (hq : q ∉ addresses s.toList) :
    Linked (Function.update mem q n) s p := by
  induction s generalizing p with
  | nil => trivial
  | node l c x r ihl ihr =>
    simp only [addresses, RbTree.toList, List.map_append, List.map_cons, List.mem_append,
      List.mem_cons, not_or] at hq
    obtain ⟨hx, hl, hr⟩ := h
    exact ⟨by rw [Function.update_of_ne (Ne.symm hq.2.1), hx], ihl hl hq.1, ihr hr hq.2.2⟩

theorem LinkedPath.update {child : Nat} (h : LinkedPath mem child path)
    (hq : q ∉ addresses (labels path)) : LinkedPath (Function.update mem q n) child path := by
  induction path generalizing child with
  | nil => trivial
  | cons f path ih =>
    simp only [addresses, labels, List.map_append, List.map_cons, List.mem_append,
      List.mem_cons, not_or] at hq
    obtain ⟨hf, hs, hpath⟩ := h
    exact ⟨by rw [Function.update_of_ne (Ne.symm hq.1), hf], hs.update hq.2.1, ih hpath hq.2.2⟩

theorem linked_mem {mem : Nat → Option (Node K T)} (h : Linked mem s p) :
    ∀ a ∈ addresses s.toList, mem a ≠ none := by
  induction s generalizing p with
  | nil => simp [addresses, RbTree.toList]
  | node l c x r ihl ihr =>
    obtain ⟨hx, hl, hr⟩ := h
    intro a ha
    simp only [addresses, RbTree.toList, List.map_append, List.map_cons, List.mem_append,
      List.mem_cons] at ha
    obtain ha | rfl | ha := ha
    · exact ihl hl a ha
    · rw [hx]
      simp
    · exact ihr hr a ha

theorem Linked.unique {p' : Nat} (h : Linked mem s p) (h' : Linked mem s' p')
    (hpos : ∀ x ∈ s.toList, 0 < x.address) (hpos' : ∀ x ∈ s'.toList, 0 < x.address)
    (ha : addr s = addr s') : s = s' := by
  induction s generalizing p p' s' with
  | nil =>
    cases s' with
    | nil => rfl
    | node l' c' x' r' => exact absurd ha (Nat.ne_of_lt (hpos' x' (by simp [RbTree.toList])))
  | node l c x r ihl ihr =>
    simp only [RbTree.toList, List.mem_append, List.mem_cons] at hpos
    cases s' with
    | nil => exact absurd ha (Nat.ne_of_gt (hpos x (.inr (.inl rfl))))
    | node l' c' x' r' =>
      simp only [RbTree.toList, List.mem_append, List.mem_cons] at hpos'
      obtain ⟨hx, hl, hr⟩ := h
      obtain ⟨hx', hl', hr'⟩ := h'
      obtain ⟨a, k, v⟩ := x
      obtain ⟨a', k', v'⟩ := x'
      obtain rfl : a = a' := ha
      have hrecord := Option.some.inj (hx.symm.trans hx')
      simp only [record, Node.mk.injEq] at hrecord
      obtain ⟨rfl, rfl, rfl, hal, har, -⟩ := hrecord
      rw [ihl hl hl' (fun y hy => hpos y (.inl hy)) (fun y hy => hpos' y (.inl hy)) hal,
        ihr hr hr' (fun y hy => hpos y (.inr (.inr hy))) (fun y hy => hpos' y (.inr (.inr hy))) har]

/-- A tree may get another parent. -/
theorem Linked.setParent (h : Linked mem s p) (hs : s ≠ .nil)
    (hd : (addresses s.toList).Nodup) (q : Nat) :
    ∃ n, mem (addr s) = some n ∧
      Linked (Function.update mem (addr s) (some { n with parent := q })) s q := by
  cases s with
  | nil => exact absurd rfl hs
  | node l c x r =>
    obtain ⟨hx, hl, hr⟩ := h
    have hxl : x.address ∉ addresses l.toList ∧ x.address ∉ addresses r.toList := by
      simp only [addresses, RbTree.toList, List.map_append, List.map_cons] at hd ⊢
      have hperm := List.nodup_middle.mp hd
      simpa using (List.nodup_cons.mp hperm).1
    exact ⟨_, hx, Function.update_self _ _ _, hl.update hxl.1, hr.update hxl.2⟩

theorem get_eq {k : Node K T} (h : t.node p = some k) : t.get p = .ok k := by
  rw [Rbtree.get, h]

@[simp] theorem root_put {k : Node K T} : (t.put p k).root = t.root := rfl

theorem put_of_ne {k : Node K T} (h : q ≠ p) : (t.put p k).node q = t.node q :=
  Function.update_of_ne h _ _

theorem modify_eq {k : Node K T} (h : t.node p = some k) (f : Node K T → Node K T) :
    t.modify p f = .ok (t.put p (f k)) := by
  simp only [Rbtree.modify, Rbtree.get, h]
  rfl

theorem setChild_eq {child : Nat} (h : LinkedPath t.node child (f :: path)) (q : Nat) :
    t.setChild f.label.address f.side q = .ok (t.put f.label.address
      (record f.side f.color f.label q (addr f.sibling) (top path))) := by
  rw [Rbtree.setChild, modify_eq h.1, record_withChild]

/-- The node above may get another child. -/
theorem LinkedPath.setChild {child : Nat} (h : LinkedPath t.node child (f :: path))
    (hd : (addresses (labels (f :: path))).Nodup) (q : Nat) :
    LinkedPath (t.put f.label.address
      (record f.side f.color f.label q (addr f.sibling) (top path))).node q (f :: path) := by
  simp only [addresses, labels, List.map_cons, List.map_append, List.nodup_cons,
    List.mem_append, not_or] at hd
  exact ⟨Function.update_self _ _ _, h.2.1.update hd.1.1, h.2.2.update hd.1.2⟩

/-- Nodes in memory stand for one tree only. -/
theorem Represents.unique (h : Represents t s) (h' : Represents t s') : s = s' :=
  h.linked.unique h'.linked (fun x hx => (h.bound x hx).1) (fun x hx => (h'.bound x hx).1)
    (h.root.symm.trans h'.root)

/-! ## Rotations -/

/-- The addresses of what a rotation works on: the node `x` that goes down, the node `y` that
goes up, three subtrees and the nodes above. -/
def places (x y : Item K T) (u v w : RbTree (Item K T)) (path : Path (Item K T)) : List Nat :=
  x.address :: y.address :: (addresses u.toList ++ (addresses v.toList ++
    (addresses w.toList ++ addresses (labels path))))

/-- The parts while they are not linked as a tree: what `x` and `y` hold, the parent of the
subtree that changes sides and the child of the node above. -/
structure Parts (x y : Item K T) (u v w : RbTree (Item K T)) (path : Path (Item K T))
    (mem : Nat → Option (Node K T)) (nx ny : Node K T) (pv child : Nat) : Prop where
  down : mem x.address = some nx
  up : mem y.address = some ny
  outer : Linked mem u x.address
  inner : Linked mem v pv
  far : Linked mem w y.address
  above : LinkedPath mem child path
  owned : ∀ a, mem a ≠ none → a ∈ places x y u v w path

section Parts

variable {nx ny : Node K T} {pv child : Nat}

theorem addr_mem (h : s ≠ .nil) : addr s ∈ addresses s.toList := by
  cases s with
  | nil => exact absurd rfl h
  | node l c x r => simp [addr, addresses, RbTree.toList]

theorem owned_update {l : List Nat} (h : ∀ a, mem a ≠ none → a ∈ l) (hp : p ∈ l) :
    ∀ a, Function.update mem p n a ≠ none → a ∈ l := by
  intro a ha
  by_cases hap : a = p
  · exact hap ▸ hp
  · rw [Function.update_of_ne hap] at ha
    exact h a ha

theorem Parts.setX (h : Parts x y u v w path t.node nx ny pv child)
    (ha : (places x y u v w path).Nodup) (n : Node K T) :
    Parts x y u v w path (t.put x.address n).node n ny pv child := by
  simp only [places, List.nodup_cons, List.mem_cons, List.mem_append, not_or] at ha
  obtain ⟨⟨hxy, hu, hv, hw, hpath⟩, -⟩ := ha
  exact ⟨Function.update_self _ _ _, by rw [put_of_ne (Ne.symm hxy), h.up],
    h.outer.update hu, h.inner.update hv, h.far.update hw, h.above.update hpath,
    owned_update h.owned (by simp [places])⟩

theorem Parts.setY (h : Parts x y u v w path t.node nx ny pv child)
    (ha : (places x y u v w path).Nodup) (n : Node K T) :
    Parts x y u v w path (t.put y.address n).node nx n pv child := by
  simp only [places, List.nodup_cons, List.mem_cons, List.mem_append, not_or] at ha
  obtain ⟨⟨hxy, -⟩, ⟨hu, hv, hw, hpath⟩, -⟩ := ha
  exact ⟨by rw [put_of_ne hxy, h.down], Function.update_self _ _ _,
    h.outer.update hu, h.inner.update hv, h.far.update hw, h.above.update hpath,
    owned_update h.owned (by simp [places])⟩

theorem Parts.setInner (h : Parts x y u v w path t.node nx ny pv child)
    (ha : (places x y u v w path).Nodup) (hv : v ≠ .nil) (q : Nat) :
    ∃ n, t.node (addr v) = some n ∧
      Parts x y u v w path (t.put (addr v) { n with parent := q }).node nx ny q child := by
  have hmem := addr_mem hv
  have howned : addr v ∈ places x y u v w path := by simp [places, hmem]
  simp only [places, List.nodup_cons, List.mem_cons, List.mem_append, not_or,
    List.nodup_append] at ha
  obtain ⟨⟨-, -, hxv, -⟩, ⟨-, hyv, -⟩, -, ⟨hdv, -, hvr⟩, huv⟩ := ha
  obtain ⟨n, hn, hlinked⟩ := h.inner.setParent hv hdv q
  refine ⟨n, hn, ?_, ?_, ?_, hlinked, ?_, ?_, owned_update h.owned howned⟩
  · rw [put_of_ne (ne_of_mem_of_not_mem hmem hxv).symm, h.down]
  · rw [put_of_ne (ne_of_mem_of_not_mem hmem hyv).symm, h.up]
  · exact h.outer.update fun hu => huv _ hu _ (.inl hmem) rfl
  · exact h.far.update fun hw => hvr _ hmem _ (.inl hw) rfl
  · exact h.above.update fun hp => hvr _ hmem _ (.inr hp) rfl

theorem Parts.setTop (h : Parts x y u v w (f :: path) t.node nx ny pv child)
    (ha : (places x y u v w (f :: path)).Nodup) (q : Nat) :
    Parts x y u v w (f :: path) (t.put f.label.address
      (record f.side f.color f.label q (addr f.sibling) (top path))).node nx ny pv q := by
  have howned : f.label.address ∈ places x y u v w (f :: path) := by
    simp [places, labels, addresses]
  have hf : f.label.address ∈ addresses (labels (f :: path)) := by simp [labels, addresses]
  simp only [places, List.nodup_cons, List.mem_cons, List.mem_append, not_or,
    List.nodup_append] at ha
  obtain ⟨⟨-, -, -, -, hx⟩, ⟨-, -, -, hy⟩, -, ⟨-, ⟨-, hd, hw⟩, hv⟩, hu⟩ := ha
  refine ⟨?_, ?_, ?_, ?_, ?_, h.above.setChild hd q, owned_update h.owned howned⟩
  · rw [put_of_ne (ne_of_mem_of_not_mem hf hx).symm, h.down]
  · rw [put_of_ne (ne_of_mem_of_not_mem hf hy).symm, h.up]
  · exact h.outer.update fun hmem => hu _ hmem _ (.inr (.inr hf)) rfl
  · exact h.inner.update fun hmem => hv _ hmem _ (.inr hf) rfl
  · exact h.far.update fun hmem => hw _ hmem _ hf rfl

theorem perm_places (d : Side) (c c' : Color) :
    (addresses (plug (join d u c x (join d v c' y w)) path).toList).Perm
      (places x y u v w path) := by
  have hin := ((perm_join d v c' y w).append_left u.toList).trans List.perm_middle
  have hjoin := (perm_join d u c x (join d v c' y w)).trans (hin.cons x)
  have hall := ((perm_plug _ path).trans (hjoin.append_right (labels path))).map Item.address
  simpa [addresses, places] using hall

/-- The parts before a rotation. -/
theorem Represents.parts (h : Represents t (plug (join d u c x (join d v c' y w)) path)) :
    Parts x y u v w path t.node (record d c x (addr u) y.address (top path))
      (record d c' y (addr v) (addr w) x.address) y.address x.address := by
  have hlinked := linked_plug.mp h.linked
  rw [linked_join, linked_join, addr_join, addr_join] at hlinked
  obtain ⟨⟨hx, hu, hy, hv, hw⟩, hpath⟩ := hlinked
  exact ⟨hx, hy, hu, hv, hw, hpath, fun a ha => (perm_places d c c').mem_iff.mp (h.owned a ha)⟩

/-- The parts after a rotation. -/
theorem Parts.represents (h : Represents t (plug (join d u c x (join d v c' y w)) path))
    (hp : Parts x y u v w path t'.node (record d c x (addr u) (addr v) y.address)
      (record d c' y x.address (addr w) (top path)) x.address y.address)
    (hroot : t'.root = addr (plug (join d (join d u c x v) c' y w) path)) :
    Represents t' (plug (join d (join d u c x v) c' y w) path) := by
  have hlist := toList_plug_congr (toList_rotate d u v w x y c c' c c') path
  refine ⟨hroot, linked_plug.mpr ?_, hlist ▸ h.distinct, hlist ▸ h.bound, fun a ha => ?_⟩
  · rw [linked_join, linked_join, addr_join, addr_join]
    exact ⟨⟨hp.up, ⟨hp.down, hp.outer, hp.inner⟩, hp.far⟩, hp.above⟩
  · rw [← hlist]
    exact (perm_places d c c').mem_iff.mpr (hp.owned a ha)

end Parts

theorem Represents.addr_ne_zero (h : Represents t (plug s path)) (hs : s ≠ .nil) :
    addr s ≠ 0 := by
  cases s with
  | nil => exact absurd rfl hs
  | node l c x r =>
    have hmem : x ∈ (plug (.node l c x r) path).toList :=
      (perm_plug _ path).mem_iff.mpr (by simp [RbTree.toList])
    exact Nat.ne_of_gt (h.bound x hmem).1

theorem Represents.top_ne_zero (h : Represents t (plug s (f :: path))) : f.label.address ≠ 0 := by
  have hne := Represents.addr_ne_zero (s := f.fill s) h join_ne_nil
  rwa [addr_fill] at hne

/-- The two children of a node are not the same one. -/
theorem Represents.addr_ne (h : Represents t (plug s (f :: path))) (hs : s ≠ .nil) :
    addr s ≠ addr f.sibling := by
  intro he
  have hmem := addr_mem hs
  have hmem' : addr f.sibling ∈ addresses f.sibling.toList :=
    addr_mem fun hnil => h.addr_ne_zero hs (by rw [he, hnil]; rfl)
  have hperm := (perm_plug s (f :: path)).map Item.address
  have hnodup := hperm.nodup_iff.mp h.distinct
  simp only [labels, List.map_append, List.map_cons] at hnodup
  have hdisjoint := (List.nodup_append.mp hnodup).2.2
  exact hdisjoint _ hmem _ (List.mem_cons_of_mem _ (List.mem_append_left _ hmem')) he

/-- Which child of its parent a node is. -/
theorem record_child_eq {a b : Nat} {e : Side} (h : a ≠ b) :
    a = (record d c x a b p).child e ↔ d = e := by
  cases d <;> cases e <;> simp [record, Node.child, h]

theorem replaceChild_spec {nx ny : Node K T} {pv : Nat}
    (hp : Parts x y u v w path t.node nx ny pv x.address)
    (ha : (places x y u v w path).Nodup) (htop : ∀ f ∈ path.head?, f.label.address ≠ 0)
    (hne : ∀ f ∈ path.head?, x.address ≠ addr f.sibling) :
    ∃ t', t.replaceChild (top path) x.address y.address = .ok t' ∧
      Parts x y u v w path t'.node nx ny pv y.address ∧
      t'.root = if path = [] then y.address else t.root := by
  cases path with
  | nil => exact ⟨_, rfl, ⟨hp.down, hp.up, hp.outer, hp.inner, hp.far, trivial, hp.owned⟩, rfl⟩
  | cons f path =>
    have hf := hp.above.1
    refine ⟨_, ?_, hp.setTop ha y.address, rfl⟩
    rw [Rbtree.replaceChild, top, if_neg (htop f rfl), bind_of_ok (get_eq hf)]
    have hside : x.address = (record f.side f.color f.label x.address (addr f.sibling)
        (top path)).left ↔ f.side = .left := record_child_eq (e := .left) (hne f rfl)
    rw [← setChild_eq hp.above]
    by_cases hd : f.side = .left
    · rw [if_pos (hside.mpr hd), hd]
    · rw [if_neg (mt hside.mp hd), Side.eq_right hd]

theorem setInner_spec {nx ny : Node K T} {pv child : Nat}
    (hp : Parts x y u v w path t.node nx ny pv child) (ha : (places x y u v w path).Nodup)
    (hv : v ≠ .nil → addr v ≠ 0) :
    ∃ t', t.unlessNull (addr v) (·.setParent (addr v) x.address) = .ok t' ∧
      Parts x y u v w path t'.node nx ny x.address child ∧ t'.root = t.root := by
  by_cases hnil : v = .nil
  · subst hnil
    exact ⟨t, rfl, ⟨hp.down, hp.up, hp.outer, trivial, hp.far, hp.above, hp.owned⟩, rfl⟩
  · obtain ⟨n, hn, hparts⟩ := hp.setInner ha hnil x.address
    refine ⟨_, ?_, hparts, rfl⟩
    rw [Rbtree.unlessNull, if_neg (hv hnil)]
    exact modify_eq hn _

theorem plug_inner : plug (join d u c x (join d v c' y w)) path =
    plug v (⟨d, c', y, w⟩ :: ⟨d.other, c, x, u⟩ :: path) := by
  simp only [plug_cons, Frame.fill, join_other]

/-- The pointers that a rotation changes are those in which the two trees differ. -/
theorem rotate_spec (h : Represents t (plug (join d u c x (join d v c' y w)) path)) :
    ∃ t', rotate d t x.address = .ok t' ∧
      Represents t' (plug (join d (join d u c x v) c' y w) path) := by
  have ha : (places x y u v w path).Nodup := (perm_places d c c').nodup_iff.mp h.distinct
  have hv : v ≠ .nil → addr v ≠ 0 := Represents.addr_ne_zero (plug_inner ▸ h)
  have htop : ∀ f ∈ path.head?, f.label.address ≠ 0 := fun f hf => by
    obtain ⟨rest, rfl⟩ := List.head?_eq_some_iff.mp hf
    exact h.top_ne_zero
  have hne : ∀ f ∈ path.head?, x.address ≠ addr f.sibling := fun f hf => by
    obtain ⟨rest, rfl⟩ := List.head?_eq_some_iff.mp hf
    simpa using h.addr_ne join_ne_nil
  have hp := h.parts
  rw [rotate, bind_of_ok (get_eq hp.down), record_child_other, bind_of_ok (get_eq hp.up),
    record_child]
  have h₁ : t.setChild x.address d.other (addr v) =
      .ok (t.put x.address (record d c x (addr u) (addr v) (top path))) := by
    rw [Rbtree.setChild, modify_eq hp.down, record_withChild_other]
  rw [bind_of_ok h₁]
  obtain ⟨t₂, h₂, hp₂, hroot₂⟩ := setInner_spec (hp.setX ha _) ha hv
  rw [bind_of_ok h₂, bind_of_ok (get_eq hp₂.down), record_parent]
  have h₃ : t₂.setParent y.address (top path) =
      .ok (t₂.put y.address (record d c' y (addr v) (addr w) (top path))) := by
    rw [Rbtree.setParent, modify_eq hp₂.up, record_with_parent]
  rw [bind_of_ok h₃]
  obtain ⟨t₄, h₄, hp₄, hroot₄⟩ := replaceChild_spec (hp₂.setY ha _) ha htop hne
  rw [bind_of_ok h₄]
  have h₅ : t₄.setChild y.address d x.address =
      .ok (t₄.put y.address (record d c' y x.address (addr w) (top path))) := by
    rw [Rbtree.setChild, modify_eq hp₄.up, record_withChild]
  rw [bind_of_ok h₅]
  have hp₅ := hp₄.setY ha (record d c' y x.address (addr w) (top path))
  have h₆ : Rbtree.setParent _ x.address y.address = .ok _ := modify_eq hp₅.down _
  rw [record_with_parent] at h₆
  refine ⟨_, h₆, (hp₅.setX ha _).represents h ?_⟩
  cases path with
  | nil => simpa using hroot₄
  | cons f path =>
    rw [root_put, root_put, hroot₄, if_neg (List.cons_ne_nil _ _), root_put, hroot₂, root_put,
      h.root]
    exact addr_plug_congr (by simp) path

/-! ## Reading and colouring -/

theorem Represents.get (h : Represents t (plug (join d u c x v) path)) :
    t.get x.address = .ok (record d c x (addr u) (addr v) (top path)) :=
  get_eq (linked_join.mp (linked_plug.mp h.linked).1).1

theorem Represents.get_parent (h : Represents t (plug s (f :: path))) :
    t.get f.label.address =
      .ok (record f.side f.color f.label (addr s) (addr f.sibling) (top path)) :=
  h.get

theorem Represents.get_root (h : Represents t (plug s path)) (hs : s ≠ .nil) :
    ∃ n, t.get (addr s) = .ok n ∧ n.parent = top path ∧ n.color = s.color := by
  cases s with
  | nil => exact absurd rfl hs
  | node l c x r =>
    refine ⟨_, Represents.get (d := .left) (u := l) (v := r) h, ?_, ?_⟩
    · rw [record_parent]
    · rw [record_color]
      rfl

theorem setColor_spec (h : Represents t (plug (join d u c x v) path)) (c' : Color) :
    ∃ t', t.setColor x.address c' = .ok t' ∧ Represents t' (plug (join d u c' x v) path) := by
  have hperm := ((perm_plug _ path).trans
    ((perm_join d u c x v).append_right (labels path))).map Item.address
  have hnodup := hperm.nodup_iff.mp h.distinct
  simp only [List.cons_append, List.map_cons, List.map_append, List.nodup_cons, List.mem_append,
    not_or] at hnodup
  obtain ⟨⟨⟨hu, hv⟩, hpath⟩, -⟩ := hnodup
  have hlist : (plug (join d u c' x v) path).toList = (plug (join d u c x v) path).toList :=
    toList_plug_congr (toList_join_congr c rfl rfl) path
  obtain ⟨hfocus, habove⟩ := linked_plug.mp h.linked
  obtain ⟨hx, hlu, hlv⟩ := linked_join.mp hfocus
  refine ⟨_, modify_eq hx _, ?_, linked_plug.mpr ⟨linked_join.mpr ⟨?_, ?_, ?_⟩, ?_⟩,
    hlist ▸ h.distinct, hlist ▸ h.bound, hlist ▸ owned_update h.owned ?_⟩
  · rw [root_put, h.root]
    exact addr_plug_congr (by simp) path
  · rw [record_with_color]
    exact Function.update_self _ _ _
  · exact hlu.update hu
  · exact hlv.update hv
  · rw [addr_join] at habove ⊢
    exact habove.update hpath
  · exact hperm.mem_iff.mpr (by simp)

theorem setParentColor_spec (h : Represents t (plug s (f :: path))) (c' : Color) :
    ∃ t', t.setColor f.label.address c' = .ok t' ∧
      Represents t' (plug s ({ f with color := c' } :: path)) := by
  have hfill : Represents t (plug (f.fill s) path) := h
  exact setColor_spec hfill c'

theorem blacken_spec (h : Represents t (plug s path)) (hs : s ≠ .nil) :
    ∃ t', t.setColor (addr s) .black = .ok t' ∧ Represents t' (plug s.blacken path) := by
  cases s with
  | nil => exact absurd rfl hs
  | node l c x r => exact setColor_spec (d := .left) h .black

end WagtailRbtree
