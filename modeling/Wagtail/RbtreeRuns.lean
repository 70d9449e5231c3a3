import Wagtail.RbtreeInsert

/-!
# Sequences of insertions

From an empty tree, by any insertions that return. What was inserted is found, whatever
the colours are; and an insertion returns unless its new node comes under a red left
child that has no sibling.
-/
namespace WagtailRbtree

open RedBlack
open Runs (Run Guarded bind_of_ok exists_of_isOk foldlM_snoc ok_of_bind)

variable {K T : Type} {s s' : RbTree (Item K T)} {path : Path (Item K T)} {t t' : Rbtree K T}
  {x : Item K T}

/-! ## What all insertions keep -/

/-- A call of `insert`, with the address that the new node gets. -/
structure Insertion (K T : Type) where
  key : K
  data : T
  address : Nat
  deriving DecidableEq, Repr

def Insertion.item (e : Insertion K T) : Item K T := ⟨e.address, e.key, e.data⟩

/-- `new` returns memory that is not in use. -/
def Allowed (t : Rbtree K T) (e : Insertion K T) : Prop :=
  0 < e.address ∧ e.address < 2 ^ 32 ∧ t.node e.address = none

def Step [LinearOrder K] (t : Rbtree K T) (e : Insertion K T) (t' : Rbtree K T) : Prop :=
  insert t e.key e.data e.address = .ok t'

/-- One call after the other. -/
def insertAll [LinearOrder K] (es : List (Insertion K T)) : Outcome (Rbtree K T) :=
  es.foldlM (fun t e => insert t e.key e.data e.address) Rbtree.empty

section Fixup

variable {α : Type} {s s' : RbTree α} {path : Path α} {f g : Frame α}

theorem toList_recolored (s : RbTree α) (f g : Frame α) (path : Path α) :
    (plug ((uncleBlack g).fill ((parentBlack f).fill s)) (redden path)).toList =
      (plug s (f :: g :: path)).toList := by
  have hred : ∀ u : RbTree α, (plug u (redden path)).toList = (plug u path).toList := fun u => by
    cases path with
    | nil => rfl
    | cons h path => exact toList_plug_congr (toList_join_congr h.color rfl rfl) path
  rw [hred]
  exact toList_plug_congr (toList_join_congr g.color (toList_join_congr f.color rfl rfl)
    (by simp [uncleBlack])) path

theorem toList_lifted (hs : s ≠ .nil) (f g : Frame α) :
    ((lifted (turned s f g.side).2 g).fill (turned s f g.side).1).toList =
      (g.fill (f.fill s)).toList := by
  by_cases hside : f.side = g.side
  · rw [turned_outer hside]
    have hrotate := toList_rotate g.side.other g.sibling f.sibling s g.label f.label g.color f.color
      .red .black
    simpa [lifted, Frame.fill, join_other, hside] using hrotate.symm
  · obtain ⟨b, e, c, y, rfl⟩ := exists_eq_join g.side hs
    rw [turned_inner hside]
    simp only [lifted, Frame.fill, Side.eq_other hside]
    cases g.side <;> simp [join, Side.other, RbTree.toList]

theorem toList_fixup (hs : s ≠ .nil) (h : fixup s path = some s') :
    s'.toList = (plug s path).toList := by
  fun_induction fixup s path with
  | case1 s => exact Option.some.inj h ▸ rfl
  | case2 s f => exact Option.some.inj h ▸ rfl
  | case3 s f g path hblack => exact Option.some.inj h ▸ rfl
  | case4 s f g path hblack huncle => cases h
  | case5 s f g path hblack huncle hred ih =>
    rw [ih join_ne_nil h, toList_recolored]
  | case6 s f g path hblack huncle hred =>
    exact Option.some.inj h ▸ toList_plug_congr (toList_lifted hs f g) path

theorem toList_fixed (hs : s ≠ .nil) (h : fixed s path = some s') :
    s'.toList = (plug s path).toList := by
  have hmap : ∀ {o : Option (RbTree α)}, (∀ u, o = some u → u.toList = (plug s path).toList) →
      o.map RbTree.blacken = some s' → s'.toList = (plug s path).toList := by
    intro o ho hs'
    obtain ⟨u, hu, rfl⟩ := Option.map_eq_some_iff.mp hs'
    rw [RbTree.toList_blacken, ho u hu]
  cases path with
  | nil => exact hmap (fun u hu => toList_fixup hs hu) h
  | cons f path =>
    rw [fixed] at h
    split_ifs at h with hblack
    · exact Option.some.inj h ▸ rfl
    · exact hmap (fun u hu => toList_fixup hs hu) h

end Fixup

theorem represents_empty : Represents (Rbtree.empty : Rbtree K T) .nil := by
  refine ⟨rfl, trivial, by simp [addresses, RbTree.toList], by simp [RbTree.toList], ?_⟩
  intro a ha
  exact absurd rfl ha

section Run

variable [LinearOrder K] {es : List (Insertion K T)} {e : Insertion K T}

/-- The labels of the tree are the insertions, in the order of the keys. -/
structure Holds (es : List (Insertion K T)) (s : RbTree (Item K T)) : Prop where
  ordered : Ordered Item.key s
  perm : s.toList.Perm (es.map Insertion.item)

theorem Holds.insertItem (h : Holds es s) (hs : insertItem e.item s = some s') :
    Holds (es ++ [e]) s' := by
  have hlist := toList_fixed (by simp) hs
  constructor
  · rw [Ordered, hlist]
    exact ordered_insert .red e.item h.ordered
  · rw [hlist, List.map_append]
    have hperm := (perm_insert Item.key .red e.item s).trans (h.perm.cons e.item)
    exact hperm.trans (List.perm_append_singleton _ _).symm

/-- What a call that returns does. -/
theorem insert_ok (h : Represents t s) (he : Allowed t e) (hstep : Step t e t') :
    ∃ s', insertItem e.item s = some s' ∧ Represents t' s' := by
  have hspec := insert_spec (x := e.item) h he.2.2 ⟨he.1, he.2.1⟩
  have hret : insert t e.item.key e.item.content e.item.address = .ok t' := hstep
  cases hs : insertItem e.item s with
  | none =>
    rw [hs, Realizes, hret] at hspec
    cases hspec
  | some s' =>
    rw [hs, Realizes, hret] at hspec
    obtain ⟨t₁, h₁, hr₁⟩ := hspec
    obtain rfl := Except.ok.inj h₁
    exact ⟨s', rfl, hr₁⟩

theorem run_holds (hrun : Run (Guarded Allowed Step) Rbtree.empty es t) :
    ∃ s, Represents t s ∧ Holds es s := by
  refine hrun.history (P := fun es t => ∃ s, Represents t s ∧ Holds es s)
    ⟨.nil, represents_empty, by simp [Ordered, RbTree.toList], by simp [RbTree.toList]⟩ ?_
  rintro es t e u ⟨s, hr, hs⟩ ⟨he, hstep⟩
  obtain ⟨s', hs', hr'⟩ := insert_ok hr he hstep
  exact ⟨s', hr', hs.insertItem hs'⟩

theorem allowed_of_run (hrun : Run (Guarded Allowed Step) Rbtree.empty es t)
    (hb : 0 < e.address ∧ e.address < 2 ^ 32) (hfresh : ∀ e' ∈ es, e'.address ≠ e.address) :
    Allowed t e := by
  refine ⟨hb.1, hb.2, ?_⟩
  obtain ⟨s, hr, hs⟩ := run_holds hrun
  by_contra hsome
  obtain ⟨x, hx, hxe⟩ := List.mem_map.mp (hr.owned _ hsome)
  obtain ⟨e', he', rfl⟩ := List.mem_map.mp (hs.perm.mem_iff.mp hx)
  exact hfresh e' he' hxe

/-- A list of calls with different new nodes is a run. -/
theorem run_insertAll (hd : (es.map Insertion.address).Nodup)
    (hb : ∀ e ∈ es, 0 < e.address ∧ e.address < 2 ^ 32) (h : insertAll es = .ok t) :
    Run (Guarded Allowed Step) Rbtree.empty es t := by
  induction es using List.reverseRecOn generalizing t with
  | nil =>
    obtain rfl := Except.ok.inj h
    exact .nil
  | append_singleton es e ih =>
    rw [insertAll, foldlM_snoc] at h
    rw [List.map_append, List.map_singleton, List.nodup_append] at hd
    obtain ⟨u, hes, hstep⟩ := ok_of_bind h
    have hrun := ih hd.1 (fun e he => hb e (by simp [he])) hes
    have hallowed : Allowed u e := allowed_of_run hrun (hb e (by simp)) fun e' he' =>
      hd.2.2 _ (List.mem_map_of_mem he') _ (by simp)
    exact hrun.snoc ⟨hallowed, hstep⟩

/-! ## Lookups and links -/

theorem findNode_spec {k : K} (h : Represents t s) :
    findNode t k = .ok (match find Item.key k s with
      | none => 0
      | some x => x.address) := by
  have hroot : Represents t (plug s []) := h
  rw [findNode, h.root]
  exact findFrom_spec hroot (Nat.lt_of_le_of_lt s.height_le_size h.size_lt)

theorem getValue_some {k : K} {out : T} (h : Represents t s) (hfind : find Item.key k s = some x) :
    getValue t k out = .ok (true, x.content) := by
  have hnode := findNode_spec (k := k) h
  rw [hfind] at hnode
  obtain ⟨l, c, r, path, rfl⟩ := exists_place (find_some hfind).1
  have hne : x.address ≠ 0 := Represents.addr_ne_zero (s := .node l c x r) h (by simp)
  have hget : t.get x.address = .ok _ := h.get (d := .left)
  rw [getValue, bind_of_ok hnode, if_neg hne, bind_of_ok hget, record_content]

theorem getValue_none {k : K} {out : T} (h : Represents t s) (hfind : find Item.key k s = none) :
    getValue t k out = .ok (false, out) := by
  have hnode := findNode_spec (k := k) h
  rw [hfind] at hnode
  rw [getValue, bind_of_ok hnode, if_pos rfl]

theorem keyExists_spec {k : K} (h : Represents t s) :
    keyExists t k = .ok (find Item.key k s).isSome := by
  rw [keyExists, bind_of_ok (findNode_spec h)]
  cases hfind : find Item.key k s with
  | none => rfl
  | some x =>
    obtain ⟨l, c, r, path, rfl⟩ := exists_place (find_some hfind).1
    have hne : x.address ≠ 0 := Represents.addr_ne_zero (s := .node l c x r) h (by simp)
    simp [hne]

end Run

/-- The parent pointers are the inverse of the child pointers. -/
structure Inverse (t : Rbtree K T) : Prop where
  root : ∀ p n, t.node p = some n → (n.parent = 0 ↔ t.root = p)
  child : ∀ p n d, t.node p = some n → n.child d ≠ 0 →
    ∃ m, t.node (n.child d) = some m ∧ m.parent = p
  parent : ∀ p n, t.node p = some n → n.parent ≠ 0 →
    ∃ m, t.node n.parent = some m ∧ ∃! d, m.child d = p

theorem node_of_get {p : Nat} {n : Node K T} (h : t.get p = .ok n) : t.node p = some n := by
  rw [Rbtree.get] at h
  split at h
  · cases h
  next heq => rw [heq, Except.ok.inj h]

/-- A node in memory is one of the tree. -/
theorem Represents.place (h : Represents t s) {p : Nat} {n : Node K T} (hn : t.node p = some n) :
    ∃ l c x r path, s = plug (.node l c x r) path ∧ p = x.address ∧
      n = record .left c x (addr l) (addr r) (top path) := by
  obtain ⟨x, hx, rfl⟩ := List.mem_map.mp (h.owned p (by simp [hn]))
  obtain ⟨l, c, r, path, rfl⟩ := exists_place hx
  have hget : t.get x.address = .ok _ := h.get (d := .left) (u := l) (v := r)
  exact ⟨l, c, x, r, path, rfl, rfl, Option.some.inj (hn.symm.trans (node_of_get hget))⟩

theorem Represents.inverse (h : Represents t s) : Inverse t := by
  refine ⟨fun p n hn => ?_, fun p n d hn hd => ?_, fun p n hn hp => ?_⟩
  · obtain ⟨l, c, x, r, path, rfl, rfl, rfl⟩ := h.place hn
    rw [record_parent]
    cases path with
    | nil => exact ⟨fun _ => h.root, fun _ => rfl⟩
    | cons f path => exact ⟨fun hz => absurd hz h.top_ne_zero,
        fun he => absurd he.symm (h.ne_root (s := .node l c x r) (by simp))⟩
  · obtain ⟨l, c, x, r, path, rfl, rfl, rfl⟩ := h.place hn
    cases d with
    | left =>
      have hl : l ≠ .nil := fun hnil => hd (by rw [hnil]; rfl)
      have hplace : Represents t (plug l (⟨.left, c, x, r⟩ :: path)) := h
      obtain ⟨m, hm, hparent, -⟩ := hplace.get_root hl
      exact ⟨m, node_of_get hm, hparent⟩
    | right =>
      have hr : r ≠ .nil := fun hnil => hd (by rw [hnil]; rfl)
      have hplace : Represents t (plug r (⟨.right, c, x, l⟩ :: path)) := h
      obtain ⟨m, hm, hparent, -⟩ := hplace.get_root hr
      exact ⟨m, node_of_get hm, hparent⟩
  · obtain ⟨l, c, x, r, path, rfl, rfl, rfl⟩ := h.place hn
    rw [record_parent] at hp ⊢
    cases path with
    | nil => exact absurd rfl hp
    | cons f path =>
      have hne := h.addr_ne (s := .node l c x r) (by simp)
      refine ⟨_, node_of_get h.get_parent, f.side, record_child, fun d hd => ?_⟩
      exact ((record_child_eq hne).mp hd.symm).symm

section Run

variable [LinearOrder K] {es : List (Insertion K T)} {e : Insertion K T}

theorem Holds.find (h : Holds es s) {k : K} (hfind : find Item.key k s = some x) :
    ∃ e ∈ es, e.key = k ∧ e.data = x.content := by
  obtain ⟨hmem, hkey⟩ := find_some hfind
  obtain ⟨e, he, rfl⟩ := List.mem_map.mp (h.perm.mem_iff.mp hmem)
  exact ⟨e, he, hkey, rfl⟩

theorem Holds.find_none (h : Holds es s) {k : K} (hfind : RedBlack.find Item.key k s = none)
    (he : e ∈ es) : e.key ≠ k :=
  RedBlack.find_none h.ordered hfind e.item (h.perm.mem_iff.mpr (List.mem_map_of_mem he))

/-- What was inserted is found, and nothing else. -/
theorem lookups_of_run (hrun : Run (Guarded Allowed Step) Rbtree.empty es t)
    (hsame : ∀ e ∈ es, ∀ e' ∈ es, e.key = e'.key → e.data = e'.data) :
    (∀ e ∈ es, ∀ out, getValue t e.key out = .ok (true, e.data)) ∧
      (∀ k, (∀ e ∈ es, e.key ≠ k) → ∀ out, getValue t k out = .ok (false, out)) ∧
      (∀ k, keyExists t k = .ok (decide (∃ e ∈ es, e.key = k))) ∧ Inverse t := by
  obtain ⟨s, hr, hs⟩ := run_holds hrun
  refine ⟨fun e he out => ?_, fun k hk out => ?_, fun k => ?_, hr.inverse⟩
  · cases hfind : find Item.key e.key s with
    | none => exact absurd rfl (hs.find_none hfind he)
    | some x =>
      obtain ⟨e', he', hkey, hdata⟩ := hs.find hfind
      rw [getValue_some hr hfind, ← hdata, hsame e' he' e he hkey]
  · cases hfind : find Item.key k s with
    | none => exact getValue_none hr hfind
    | some x =>
      obtain ⟨e, he, hkey, -⟩ := hs.find hfind
      exact absurd hkey (hk e he)
  · rw [keyExists_spec hr]
    cases hfind : find Item.key k s with
    | none =>
      have hno : ¬∃ e ∈ es, e.key = k := fun ⟨e, he, hkey⟩ => hs.find_none hfind he hkey
      rw [decide_eq_false hno]
      rfl
    | some x =>
      obtain ⟨e, he, hkey, -⟩ := hs.find hfind
      rw [decide_eq_true (p := ∃ e ∈ es, e.key = k) ⟨e, he, hkey⟩]
      rfl

theorem lookups_of_five : ∃ t : Rbtree Nat Nat, getValue t 2 0 = .ok (true, 20) ∧
    getValue t 7 5 = .ok (false, 5) ∧ keyExists t 6 = .ok true ∧ Inverse t := by
  obtain ⟨t, ht⟩ := exists_of_isOk (x := insertAll ([⟨4, 40, 16⟩, ⟨2, 20, 32⟩, ⟨6, 60, 48⟩,
    ⟨2, 20, 64⟩, ⟨2, 20, 80⟩] : List (Insertion Nat Nat))) (by rfl)
  obtain ⟨hfound, hmissing, hexists, hinverse⟩ :=
    lookups_of_run (run_insertAll (by decide) (by decide) ht) (by decide)
  exact ⟨t, hfound ⟨2, 20, 32⟩ (by decide) 0, hmissing 7 (by decide) 5,
    hexists 6, hinverse⟩

end Run

end WagtailRbtree
