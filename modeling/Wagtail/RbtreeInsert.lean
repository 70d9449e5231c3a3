import Wagtail.Library.Word
import Wagtail.RbtreeShape

/-!
# Insertion and search as functions of the tree

What `insertion_fixup` makes of the place of a node, with its two branches as they are
written: the left one fails without an uncle, and a red uncle turns the node above the
grandparent red. The functions on the nodes in memory compute this.
-/
namespace WagtailRbtree

open RedBlack
open Runs (bind_of_ok)

variable {K T : Type}

/-! ## The loop of the fixup -/

section Fixup

variable {α : Type}

/-- The node above turns red. -/
def redden : Path α → Path α
  | [] => []
  | h :: path => { h with color := .red } :: path

def parentBlack (f : Frame α) : Frame α := { f with color := .black }

/-- A grandparent whose other child turns black. -/
def uncleBlack (g : Frame α) : Frame α := { g with sibling := g.sibling.blacken }

/-- The node and the parent that are lifted: an inner child changes places with its parent. -/
def turned (s : RbTree α) (f : Frame α) (d : Side) : RbTree α × Frame α :=
  match s with
  | .nil => (.nil, f)
  | .node l c y r =>
    if f.side = d then (.node l c y r, f)
    else (join d f.sibling f.color f.label (RbTree.child (.node l c y r) d),
      ⟨d, c, y, RbTree.child (.node l c y r) d.other⟩)

theorem turned_outer {s : RbTree α} {f : Frame α} {d : Side} (h : f.side = d) :
    turned s f d = (s, f) := by
  cases s with
  | nil => rfl
  | node l c y r => rw [turned, if_pos h]

theorem turned_inner {b e : RbTree α} {f : Frame α} {d : Side} {c : Color} {y : α}
    (h : f.side ≠ d) :
    turned (join d b c y e) f d = (join d f.sibling f.color f.label b, ⟨d, c, y, e⟩) := by
  cases d <;> simp [join, turned, h, RbTree.child, Side.other]

/-- The parent in the place of the grandparent. -/
def lifted (f g : Frame α) : Frame α :=
  ⟨g.side, .black, f.label, join g.side f.sibling .red g.label g.sibling⟩

/-- The loop of `insertion_fixup` at a node; `none` is the use of a null pointer. -/
def fixup (s : RbTree α) : Path α → Option (RbTree α)
  | [] => some s
  | [f] => some (plug s [f])
  | f :: g :: path =>
    if f.color = .black then some (plug s (f :: g :: path))
    else if g.side = .left ∧ g.sibling = .nil then none
    else if g.sibling.color = .red then
      fixup ((uncleBlack g).fill ((parentBlack f).fill s)) (redden path)
    else
      some (plug (turned s f g.side).1 (lifted (turned s f g.side).2 g :: path))
termination_by path => path.length
decreasing_by cases path <;> simp [redden]

end Fixup

variable {t t' : Rbtree K T} {s u v : RbTree (Item K T)} {path : Path (Item K T)}
  {f g : Frame (Item K T)} {x y : Item K T} {c : Color} {d : Side} {key : K} {p : Nat}

/-- A call does to the nodes in memory what was done to the tree. -/
def Realizes (o : Outcome (Rbtree K T)) : Option (RbTree (Item K T)) → Prop
  | none => o = .error .null
  | some s => ∃ t, o = .ok t ∧ Represents t s

theorem plug_sibling : plug s (f :: path) =
    plug f.sibling (⟨f.side.other, f.color, f.label, s⟩ :: path) := by
  rw [plug_cons, fill_sibling, plug_cons]

theorem reddenAbove_spec (h : Represents t (plug s (f :: g :: path))) (hy : g.sibling ≠ .nil) :
    ∃ t', t.reddenAbove (addr g.sibling) = .ok t' ∧
      Represents t' (plug s (f :: g :: redden path)) := by
  have hsibling := h
  rw [plug_cons, plug_sibling] at hsibling
  obtain ⟨n, hn, hparent, -⟩ := hsibling.get_root hy
  have hgrand : t.get g.label.address = .ok _ := h.get_parent (s := f.fill s)
  rw [Rbtree.reddenAbove, Rbtree.unlessNull, if_neg (hsibling.addr_ne_zero hy), bind_of_ok hn,
    hparent, top, Rbtree.unlessNull, if_neg hsibling.top_ne_zero, bind_of_ok hgrand, record_parent]
  cases path with
  | nil => exact ⟨t, rfl, h⟩
  | cons i path =>
    have habove : Represents t (plug (g.fill (f.fill s)) (i :: path)) := h
    rw [Rbtree.unlessNull, top, if_neg habove.top_ne_zero]
    exact setParentColor_spec habove .red

theorem recolor_spec (h : Represents t (plug s (f :: g :: path))) (hs : s ≠ .nil)
    (hy : g.sibling ≠ .nil) :
    ∃ t', recolor t (addr s) (addr g.sibling) = .ok (t', g.label.address) ∧
      Represents t' (plug s (parentBlack f :: uncleBlack g :: redden path)) := by
  obtain ⟨n, hn, hparent, -⟩ := h.get_root hs
  obtain ⟨t₁, h₁, hr₁⟩ := setParentColor_spec h .black
  have hsibling := hr₁
  rw [plug_cons, plug_sibling] at hsibling
  obtain ⟨t₂, h₂, hr₂⟩ := blacken_spec hsibling hy
  have huncle : t₁.unlessNull (addr g.sibling) (·.setColor (addr g.sibling) .black) = .ok t₂ := by
    rw [Rbtree.unlessNull, if_neg (hsibling.addr_ne_zero hy), h₂]
  have hblack : Represents t₂ (plug s (parentBlack f :: uncleBlack g :: path)) := by
    rw [plug_cons, plug_sibling]
    exact hr₂
  obtain ⟨t₃, h₃, hr₃⟩ := reddenAbove_spec hblack (by simpa [uncleBlack] using hy)
  rw [uncleBlack, addr_blacken] at h₃
  obtain ⟨n₃, hn₃, hparent₃, -⟩ := hr₃.get_root hs
  refine ⟨t₃, ?_, hr₃⟩
  rw [recolor, bind_of_ok hn, hparent, top, bind_of_ok h₁, bind_of_ok huncle, bind_of_ok h₃,
    bind_of_ok hn₃, hparent₃, top, bind_of_ok hr₃.get_parent, record_parent]
  rfl

theorem lift_spec (h : Represents t (plug s (f :: g :: path))) (hs : s ≠ .nil)
    (hside : f.side = g.side) :
    ∃ t', lift g.side t (addr s) = .ok t' ∧ Represents t' (plug s (lifted f g :: path)) := by
  obtain ⟨n, hn, hparent, -⟩ := h.get_root hs
  obtain ⟨t₁, h₁, hr₁⟩ := setParentColor_spec h .black
  have hget : t₁.get f.label.address = .ok _ := hr₁.get_parent
  obtain ⟨t₂, h₂, hr₂⟩ := setParentColor_spec (s := (parentBlack f).fill s) hr₁ .red
  have hbefore : plug s (parentBlack f :: { g with color := .red } :: path) =
      plug (join g.side.other g.sibling .red g.label
        (join g.side.other f.sibling .black f.label s)) path := by
    simp [parentBlack, Frame.fill, join_other, hside]
  have hafter : plug s (lifted f g :: path) =
      plug (join g.side.other (join g.side.other g.sibling .red g.label f.sibling) .black
        f.label s) path := by
    simp [lifted, Frame.fill, join_other]
  obtain ⟨t₃, h₃, hr₃⟩ := rotate_spec (hbefore ▸ hr₂)
  refine ⟨t₃, ?_, hafter ▸ hr₃⟩
  rw [lift, bind_of_ok hn, hparent, top, bind_of_ok h₁, bind_of_ok hget, record_parent, top,
    bind_of_ok h₂]
  exact h₃

/-- The node that `rotateUp` goes on with has a black parent. -/
theorem rotateUp_spec (h : Represents t (plug s (f :: g :: path))) (hs : s ≠ .nil) :
    ∃ t', rotateUp g.side t (addr s) = .ok (t', addr (turned s f g.side).1) ∧
      (turned s f g.side).1 ≠ .nil ∧
      Represents t' (plug (turned s f g.side).1 (lifted (turned s f g.side).2 g :: path)) := by
  obtain ⟨n, hn, hparent, -⟩ := h.get_root hs
  have hinner : addr s = (record f.side f.color f.label (addr s) (addr f.sibling)
      (top (g :: path))).child g.side.other ↔ f.side = g.side.other :=
    record_child_eq (h.addr_ne hs)
  rw [rotateUp, bind_of_ok hn, hparent, top, bind_of_ok h.get_parent]
  by_cases hside : f.side = g.side
  · obtain ⟨t₁, h₁, hr₁⟩ := lift_spec h hs hside
    rw [if_neg (fun he => g.side.other_ne (hside ▸ hinner.mp he).symm), bind_of_ok h₁,
      turned_outer hside]
    exact ⟨t₁, rfl, hs, hr₁⟩
  · have hother := Side.eq_other hside
    obtain ⟨b, e, c, y, rfl⟩ := exists_eq_join g.side hs
    have hbefore : plug (join g.side b c y e) (f :: g :: path) =
        plug (join g.side f.sibling f.color f.label (join g.side b c y e)) (g :: path) := by
      simp [Frame.fill, hother, join_other]
    obtain ⟨t₁, h₁, hr₁⟩ := rotate_spec (hbefore ▸ h)
    obtain ⟨t₂, h₂, hr₂⟩ := lift_spec (s := join g.side f.sibling f.color f.label b)
      (f := ⟨g.side, c, y, e⟩) hr₁ join_ne_nil rfl
    rw [addr_join] at h₂
    rw [if_pos (hinner.mpr hother), bind_of_ok h₁, bind_of_ok h₂, turned_inner hside, addr_join]
    exact ⟨t₂, rfl, join_ne_nil, hr₂⟩

theorem addr_plug_mem (s : RbTree (Item K T)) (f : Frame (Item K T)) (path : Path (Item K T)) :
    addr (plug s (f :: path)) ∈ addresses (labels (f :: path)) := by
  induction path generalizing s f with
  | nil => simp [labels, addresses]
  | cons g path ih =>
    have hmem := ih (f.fill s) g
    simp only [labels, addresses, List.map_cons, List.map_append] at hmem ⊢
    exact List.mem_cons_of_mem _ (List.mem_append_right _ hmem)

theorem Represents.ne_root (h : Represents t (plug s (f :: path))) (hs : s ≠ .nil) :
    addr s ≠ t.root := by
  rw [h.root]
  have hnodup := ((perm_plug s (f :: path)).map Item.address).nodup_iff.mp h.distinct
  rw [List.map_append] at hnodup
  exact (List.nodup_append.mp hnodup).2.2 _ (addr_mem hs) _ (addr_plug_mem s f path)

/-- Where the loop ends. -/
theorem fixupTurn_done (h : Represents t (plug s path)) (hs : s ≠ .nil)
    (hdone : path.length ≤ 1 ∨ ∀ f ∈ path.head?, f.color = .black) :
    fixupTurn t (addr s) = .ok none := by
  cases path with
  | nil =>
    have hroot : addr s = t.root := h.root.symm
    rw [fixupTurn, if_pos hroot]
  | cons f path =>
    obtain ⟨n, hn, hparent, -⟩ := h.get_root hs
    rw [fixupTurn, if_neg (h.ne_root hs), bind_of_ok hn, hparent, top, bind_of_ok h.get_parent,
      record_parent, record_color]
    cases path with
    | nil => rfl
    | cons g path =>
      have hblack : f.color = .black := by simpa using hdone
      have hgrand : Represents t (plug (f.fill s) (g :: path)) := h
      rw [top, if_neg hgrand.top_ne_zero, hblack]
      rfl

theorem hasColor_red (h : Represents t (plug s path)) :
    t.hasColor (addr s) .red = .ok (s.color == .red) := by
  by_cases hs : s = .nil
  · subst hs
    rfl
  · obtain ⟨n, hn, -, hcolor⟩ := h.get_root hs
    rw [Rbtree.hasColor, if_neg (h.addr_ne_zero hs), bind_of_ok hn, hcolor]

/-- A turn of the loop for a red parent, up to what the uncle decides. -/
theorem fixupTurn_red (h : Represents t (plug s (f :: g :: path))) (hs : s ≠ .nil)
    (hred : f.color = .red) :
    fixupTurn t (addr s) =
      (if g.side = .left then do
        let uncle ← t.get (addr g.sibling)
        let next ← (if uncle.color = .red then recolor t (addr s) (addr g.sibling)
          else rotateUp .left t (addr s))
        .ok (some next)
      else do
        let next ← (if g.sibling.color = .red then recolor t (addr s) (addr g.sibling)
          else rotateUp .right t (addr s))
        .ok (some next)) := by
  obtain ⟨n, hn, hparent, -⟩ := h.get_root hs
  have hgrand : Represents t (plug (f.fill s) (g :: path)) := h
  have hleft : f.label.address = (record g.side g.color g.label (addr (f.fill s))
      (addr g.sibling) (top path)).left ↔ g.side = .left := by
    have hne := hgrand.addr_ne join_ne_nil
    rw [addr_fill] at hne ⊢
    exact record_child_eq (e := .left) hne
  rw [fixupTurn, if_neg (h.ne_root hs), bind_of_ok hn, hparent, top, bind_of_ok h.get_parent,
    record_parent, record_color, hred, top, if_neg hgrand.top_ne_zero, if_neg (by simp),
    bind_of_ok hgrand.get_parent]
  by_cases hside : g.side = .left
  · rw [if_pos (hleft.mpr hside), if_pos hside, hside]
    rfl
  · have hsibling := hgrand
    rw [plug_sibling] at hsibling
    rw [if_neg (mt hleft.mp hside), if_neg hside, Side.eq_right hside]
    refine (bind_of_ok (hasColor_red hsibling) _).trans ?_
    simp only [beq_iff_eq]
    rfl

theorem Represents.get_null (h : Represents t s) : t.get 0 = .error .null := by
  have hnone : t.node 0 = none := by
    by_contra hsome
    obtain ⟨x, hx, hzero⟩ := List.mem_map.mp (h.owned 0 hsome)
    exact absurd (h.bound x hx).1 (by omega)
  rw [Rbtree.get, hnone]

/-- The branch that does not ask whether there is an uncle. -/
theorem fixupTurn_null (h : Represents t (plug s (f :: g :: path))) (hs : s ≠ .nil)
    (hred : f.color = .red) (hleft : g.side = .left) (hnil : g.sibling = .nil) :
    fixupTurn t (addr s) = .error .null := by
  rw [fixupTurn_red h hs hred, if_pos hleft, hnil, addr, h.get_null]
  rfl

theorem fixupTurn_uncle (h : Represents t (plug s (f :: g :: path))) (hs : s ≠ .nil)
    (hred : f.color = .red) (huncle : ¬(g.side = .left ∧ g.sibling = .nil)) :
    fixupTurn t (addr s) = (do
      let next ← (if g.sibling.color = .red then recolor t (addr s) (addr g.sibling)
        else rotateUp g.side t (addr s))
      .ok (some next)) := by
  rw [fixupTurn_red h hs hred]
  by_cases hside : g.side = .left
  · have hsibling : Represents t (plug (f.fill s) (g :: path)) := h
    rw [plug_sibling] at hsibling
    obtain ⟨y, hy, -, hcolor⟩ := hsibling.get_root fun hnil => huncle ⟨hside, hnil⟩
    rw [if_pos hside, bind_of_ok hy, hcolor, hside]
  · rw [if_neg hside, Side.eq_right hside]

theorem fixupLoop_done {turns n : Nat} (h : fixupTurn t n = .ok none) :
    fixupLoop t (turns + 1) n = .ok t := by
  rw [fixupLoop, bind_of_ok h]

theorem fixupLoop_next {turns n n' : Nat} (h : fixupTurn t n = .ok (some (t', n'))) :
    fixupLoop t (turns + 1) n = fixupLoop t' turns n' := by
  rw [fixupLoop, bind_of_ok h]

@[simp] theorem length_redden {α : Type} (path : Path α) : (redden path).length = path.length := by
  cases path <;> rfl

/-- The loop does to the nodes what `fixup` does to the tree. A turn leaves two frames less, or
is the last but one. -/
theorem fixupLoop_spec {turns : Nat} (h : Represents t (plug s path)) (hs : s ≠ .nil)
    (hturns : path.length < turns) : Realizes (fixupLoop t turns (addr s)) (fixup s path) := by
  induction turns generalizing t s path with
  | zero => omega
  | succ turns ih =>
    match path with
    | [] =>
      rw [fixup, fixupLoop_done (fixupTurn_done h hs (.inl (by simp)))]
      exact ⟨t, rfl, h⟩
    | [f] =>
      rw [fixup, fixupLoop_done (fixupTurn_done h hs (.inl (by simp)))]
      exact ⟨t, rfl, h⟩
    | f :: g :: path =>
      rw [List.length_cons, List.length_cons] at hturns
      rw [fixup]
      split_ifs with hblack huncle hred
      · rw [fixupLoop_done (fixupTurn_done h hs (.inr (by simpa using hblack)))]
        exact ⟨t, rfl, h⟩
      · rw [Realizes, fixupLoop, fixupTurn_null h hs (Color.eq_red hblack) huncle.1 huncle.2]
        rfl
      · have hy : g.sibling ≠ .nil := fun hnil => by rw [hnil] at hred; cases hred
        obtain ⟨t₁, h₁, hr₁⟩ := recolor_spec h hs hy
        have hturn : fixupTurn t (addr s) = .ok (some (t₁, g.label.address)) := by
          rw [fixupTurn_uncle h hs (Color.eq_red hblack) huncle, if_pos hred]
          exact bind_of_ok h₁ _
        have hrest := ih (s := (uncleBlack g).fill ((parentBlack f).fill s)) hr₁ join_ne_nil
          (by rw [length_redden]; omega)
        rw [addr_fill] at hrest
        rw [fixupLoop_next hturn]
        exact hrest
      · obtain ⟨t₁, h₁, hu, hr₁⟩ := rotateUp_spec h hs
        have hturn : fixupTurn t (addr s) = .ok (some (t₁, addr (turned s f g.side).1)) := by
          rw [fixupTurn_uncle h hs (Color.eq_red hblack) huncle, if_neg hred]
          exact bind_of_ok h₁ _
        obtain ⟨turns, rfl⟩ : ∃ n, turns = n + 1 := ⟨turns - 1, by omega⟩
        rw [fixupLoop_next hturn, fixupLoop_done (fixupTurn_done hr₁ hu (.inr (by simp [lifted])))]
        exact ⟨t₁, rfl, hr₁⟩

theorem Represents.size_lt (h : Represents t s) : s.size < 2 ^ 32 := by
  have hlt := Word.length_lt (n := 2 ^ 32) (by decide) h.distinct fun a ha => by
    obtain ⟨x, hx, rfl⟩ := List.mem_map.mp ha
    exact h.bound x hx
  rwa [addresses, List.length_map, RbTree.length_toList] at hlt

theorem Represents.length_lt (h : Represents t (plug s path)) : path.length < maxTurns := by
  have hsize := h.size_lt
  have hlength := (perm_plug s path).length_eq
  rw [RbTree.length_toList, List.length_append] at hlength
  have hlabels := length_le_labels path
  simp only [maxTurns]
  omega

theorem fixup_ne_nil {α : Type} {s s' : RbTree α} {path : Path α} (hs : s ≠ .nil)
    (h : fixup s path = some s') : s' ≠ .nil := by
  fun_induction fixup s path with
  | case1 s => exact Option.some.inj h ▸ hs
  | case2 s f => exact Option.some.inj h ▸ plug_ne_nil hs
  | case3 s f g path hblack => exact Option.some.inj h ▸ plug_ne_nil hs
  | case4 s f g path hblack huncle => cases h
  | case5 s f g path hblack huncle hred ih => exact ih join_ne_nil h
  | case6 s f g path hblack huncle hred =>
    exact Option.some.inj h ▸ plug_ne_nil (t := (lifted _ g).fill _) join_ne_nil

/-- What `insertion_fixup` makes of a tree with a new node. -/
def fixed {α : Type} (s : RbTree α) (path : Path α) : Option (RbTree α) :=
  match path with
  | [] => (fixup s []).map RbTree.blacken
  | f :: path =>
    if f.color = .black then some (plug s (f :: path))
    else (fixup s (f :: path)).map RbTree.blacken

theorem fixupRoot_spec (h : Represents t (plug s path)) (hs : s ≠ .nil) :
    Realizes (do
      let t ← fixupLoop t maxTurns (addr s)
      t.setColor t.root .black) ((fixup s path).map RbTree.blacken) := by
  have hloop := fixupLoop_spec h hs h.length_lt
  cases hfix : fixup s path with
  | none =>
    rw [hfix, Realizes] at hloop
    rw [Option.map_none, Realizes, hloop]
    rfl
  | some s' =>
    rw [hfix] at hloop
    obtain ⟨t₁, h₁, hr₁⟩ := hloop
    have hroot : Represents t₁ (plug s' []) := hr₁
    obtain ⟨t₂, h₂, hr₂⟩ := blacken_spec hroot (fixup_ne_nil hs hfix)
    refine ⟨t₂, ?_, hr₂⟩
    rw [bind_of_ok h₁, hr₁.root, h₂]

theorem insertionFixup_spec (h : Represents t (plug s path)) (hs : s ≠ .nil) :
    Realizes (insertionFixup t (addr s)) (fixed s path) := by
  obtain ⟨n, hn, hparent, -⟩ := h.get_root hs
  rw [insertionFixup, bind_of_ok hn, hparent]
  cases path with
  | nil => exact fixupRoot_spec h hs
  | cons f path =>
    have hcolor : t.hasColor (top (f :: path)) .black = .ok (f.color == .black) := by
      rw [Rbtree.hasColor, top, if_neg h.top_ne_zero, bind_of_ok h.get_parent, record_color]
    rw [bind_of_ok hcolor, fixed]
    by_cases hblack : f.color = .black
    · rw [if_pos hblack, if_pos (beq_iff_eq.mpr hblack)]
      exact ⟨t, rfl, h⟩
    · rw [if_neg hblack, if_neg (mt beq_iff_eq.mp hblack)]
      exact fixupRoot_spec h hs

/-! ## Insertion and search -/

section Search

variable [LinearOrder K] {k : K} {turns : Nat}

/-- `insert` on trees. -/
def insertItem (x : Item K T) (s : RbTree (Item K T)) : Option (RbTree (Item K T)) :=
  fixed (.node .nil .red x .nil) (descend Item.key x.key s [])

theorem findParent_spec (h : Represents t (plug s path)) (hturns : s.height < turns) :
    findParent t k turns (addr s) (top path) = .ok (top (descend Item.key k s path)) := by
  induction s generalizing turns path with
  | nil =>
    obtain ⟨turns, rfl⟩ : ∃ n, turns = n + 1 := ⟨turns - 1, by omega⟩
    rfl
  | node l c x r ihl ihr =>
    obtain ⟨turns, rfl⟩ : ∃ n, turns = n + 1 := ⟨turns - 1, by omega⟩
    have hget : t.get x.address = .ok _ := h.get (d := .left) (u := l) (v := r)
    have hne : x.address ≠ 0 := Represents.addr_ne_zero (s := .node l c x r) h (by simp)
    rw [RbTree.height] at hturns
    have hl : Represents t (plug l (⟨.left, c, x, r⟩ :: path)) := h
    have hr : Represents t (plug r (⟨.right, c, x, l⟩ :: path)) := h
    rw [findParent, addr, if_neg hne, bind_of_ok hget, record_key, descend]
    split_ifs with hlt
    · exact ihl hl (by omega)
    · exact ihr hr (by omega)

/-- The node that `find_node` ends at. -/
theorem findFrom_spec {path : Path (Item K T)} (h : Represents t (plug s path))
    (hturns : s.height < turns) :
    findFrom t k turns (addr s) = .ok (match find Item.key k s with
      | none => 0
      | some x => x.address) := by
  induction s generalizing turns path with
  | nil =>
    obtain ⟨turns, rfl⟩ : ∃ n, turns = n + 1 := ⟨turns - 1, by omega⟩
    rfl
  | node l c x r ihl ihr =>
    obtain ⟨turns, rfl⟩ : ∃ n, turns = n + 1 := ⟨turns - 1, by omega⟩
    have hget : t.get x.address = .ok _ := h.get (d := .left) (u := l) (v := r)
    have hne : x.address ≠ 0 := Represents.addr_ne_zero (s := .node l c x r) h (by simp)
    rw [RbTree.height] at hturns
    have hl : Represents t (plug l (⟨.left, c, x, r⟩ :: path)) := h
    have hr : Represents t (plug r (⟨.right, c, x, l⟩ :: path)) := h
    rw [findFrom, addr, if_neg hne, bind_of_ok hget, record_key, find]
    split_ifs with heq hlt
    · rfl
    · exact ihl hl (by omega)
    · exact ihr hr (by omega)

theorem attach_eq {child : Nat} (h : LinkedPath t.node child (f :: path))
    (hne : f.label.address ≠ 0) (hside : f.side = .left ↔ k < f.label.key) (p : Nat) :
    t.attach k f.label.address p = t.setChild f.label.address f.side p := by
  rw [Rbtree.attach, if_neg hne, bind_of_ok (get_eq h.1), record_key]
  by_cases hd : f.side = .left
  · rw [if_pos (hside.mp hd), hd]
  · rw [if_neg (mt hside.mpr hd), Side.eq_right hd]

/-- A new node at a missing child. -/
theorem attach_spec (h : Represents t (plug .nil path)) (hfree : t.node x.address = none)
    (hbound : 0 < x.address ∧ x.address < 2 ^ 32)
    (hside : ∀ f ∈ path, f.side = .left ↔ x.key < f.label.key) :
    ∃ t', (t.put x.address ⟨x.key, x.content, .red, 0, 0, top path⟩).attach x.key (top path)
        x.address = .ok t' ∧ Represents t' (plug (.node .nil .red x .nil) path) := by
  have hold : (plug .nil path).toList.Perm (labels path) := perm_plug .nil path
  have hnew : (plug (.node .nil .red x .nil) path).toList.Perm (x :: labels path) :=
    perm_plug _ path
  have hx : x.address ∉ addresses (labels path) := fun hmem =>
    linked_mem h.linked _ ((hold.map _).mem_iff.mpr hmem) hfree
  have hlabels : (addresses (labels path)).Nodup := (hold.map _).nodup_iff.mp h.distinct
  have hdistinct : (addresses (plug (.node .nil .red x .nil) path).toList).Nodup :=
    (hnew.map _).nodup_iff.mpr (List.nodup_cons.mpr ⟨hx, hlabels⟩)
  have hbounds : ∀ y ∈ (plug (.node .nil .red x .nil) path).toList,
      0 < y.address ∧ y.address < 2 ^ 32 := fun y hy => by
    cases List.mem_cons.mp (hnew.mem_iff.mp hy) with
    | inl hy => exact hy ▸ hbound
    | inr hy => exact h.bound y (hold.mem_iff.mpr hy)
  have howned : ∀ a, (t.put x.address ⟨x.key, x.content, .red, 0, 0, top path⟩).node a ≠ none →
      a ∈ addresses (plug (.node .nil .red x .nil) path).toList :=
    owned_update (fun a ha => (hnew.map _).mem_iff.mpr
      (List.mem_cons_of_mem _ ((hold.map _).mem_iff.mp (h.owned a ha))))
      ((hnew.map _).mem_iff.mpr (by simp))
  have habove : LinkedPath (t.put x.address ⟨x.key, x.content, .red, 0, 0, top path⟩).node 0 path :=
    (linked_plug.mp h.linked).2.update hx
  have hleaf : Linked (t.put x.address ⟨x.key, x.content, .red, 0, 0, top path⟩).node
      (.node .nil .red x .nil) (top path) := ⟨Function.update_self _ _ _, trivial, trivial⟩
  cases path with
  | nil => exact ⟨_, rfl, rfl, hleaf, hdistinct, hbounds, howned⟩
  | cons f path =>
    have hf : f.label.address ∈ addresses (labels (f :: path)) := by simp [labels, addresses]
    have hne : f.label.address ≠ x.address := ne_of_mem_of_not_mem hf hx
    refine ⟨_, ?_, ?_, linked_plug.mpr ⟨?_, habove.setChild hlabels x.address⟩, hdistinct, hbounds,
      owned_update howned ((hnew.map _).mem_iff.mpr (List.mem_cons_of_mem _ hf))⟩
    · exact (attach_eq habove h.top_ne_zero (hside f List.mem_cons_self) _).trans
        (setChild_eq habove _)
    · rw [root_put, root_put, h.root]
      exact addr_plug_congr (by simp) path
    · exact hleaf.update (by simpa [addresses, RbTree.toList] using hne)

theorem insert_spec (h : Represents t s) (hfree : t.node x.address = none)
    (hbound : 0 < x.address ∧ x.address < 2 ^ 32) :
    Realizes (insert t x.key x.content x.address) (insertItem x s) := by
  have hplug : Represents t (plug .nil (descend Item.key x.key s [])) := by
    rw [plug_descend]
    exact h
  have hparent : findParent t x.key maxTurns t.root 0 =
      .ok (top (descend Item.key x.key s [])) := by
    have hheight := Nat.lt_of_le_of_lt s.height_le_size h.size_lt
    have hroot : Represents t (plug s []) := h
    rw [h.root]
    exact findParent_spec hroot hheight
  obtain ⟨t₁, h₁, hr₁⟩ := attach_spec hplug hfree hbound (side_descend (by simp))
  rw [insert, bind_of_ok hparent, bind_of_ok h₁]
  exact insertionFixup_spec hr₁ (by simp)

end Search

end WagtailRbtree
