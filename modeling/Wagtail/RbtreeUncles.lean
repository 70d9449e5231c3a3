import Wagtail.RbtreeRuns

/-!
# When insertions return

A tree in which every insertion so far has returned is made of black nodes with leaves
below them, so only the parent of a new node can lack a sibling. The left branch of the
fixup reads the colour of that sibling without asking whether there is one.
-/
namespace WagtailRbtree

open RedBlack
open Runs (Run Guarded exists_of_isOk foldlM_snoc ok_of_bind)

section Shape

variable {α κ : Type} {s s' : RbTree α} {path : Path α} {f g : Frame α} {x : α}

/-- Nothing, or a red node without children. -/
def Tip : RbTree α → Prop
  | .nil => True
  | .node l c _ r => c = .red ∧ l = .nil ∧ r = .nil

/-- Black nodes with tips below them, joined by nodes of any colour. -/
def Grown : RbTree α → Prop
  | .nil => False
  | .node l c _ r => (c = .black ∧ Tip l ∧ Tip r) ∨ (Grown l ∧ Grown r)

/-- A node that joins two grown trees. -/
def Fork : RbTree α → Prop
  | .nil => False
  | .node l _ _ r => Grown l ∧ Grown r

theorem grown_join_tips {d : Side} {u v : RbTree α} (hu : Tip u) (hv : Tip v) :
    Grown (join d u .black x v) := by
  cases d with
  | left => exact .inl ⟨rfl, hu, hv⟩
  | right => exact .inl ⟨rfl, hv, hu⟩

theorem fork_join {d : Side} {u v : RbTree α} {c : Color} :
    Fork (join d u c x v) ↔ Grown u ∧ Grown v := by
  cases d with
  | left => rfl
  | right => exact and_comm

theorem Fork.grown (h : Fork s) : Grown s := by
  cases s with
  | nil => exact h
  | node l c x r => exact .inr h

theorem Grown.ne_nil (h : Grown s) : s ≠ .nil := by
  rintro rfl
  exact h

theorem Grown.blacken (h : Grown s) : Grown s.blacken := by
  cases s with
  | nil => exact h
  | node l c x r =>
    obtain ⟨-, htips⟩ | hfork := h
    · exact .inl ⟨rfl, htips⟩
    · exact .inr hfork

theorem grown_plug (h : Grown s) (hpath : ∀ f ∈ path, Grown f.sibling) : Grown (plug s path) := by
  induction path generalizing s with
  | nil => exact h
  | cons f path ih =>
    rw [List.forall_mem_cons] at hpath
    exact ih (fork_join.mpr ⟨h, hpath.1⟩).grown hpath.2

theorem sibling_redden {P : RbTree α → Prop} (hpath : ∀ f ∈ path, P f.sibling) :
    ∀ f ∈ redden path, P f.sibling := by
  cases path with
  | nil => exact hpath
  | cons f path => simpa [redden] using hpath

/-- The loop goes on through grown trees without a null pointer, and leaves one. -/
theorem fixup_fork (h : Fork s) (hpath : ∀ f ∈ path, Grown f.sibling) :
    ∃ s', fixup s path = some s' ∧ Grown s' := by
  fun_induction fixup s path with
  | case1 s => exact ⟨s, rfl, h.grown⟩
  | case2 s f => exact ⟨_, rfl, grown_plug h.grown hpath⟩
  | case3 s f g path hblack => exact ⟨_, rfl, grown_plug h.grown hpath⟩
  | case4 s f g path hblack huncle =>
    exact absurd huncle.2 (hpath g (by simp)).ne_nil
  | case5 s f g path hblack huncle hred ih =>
    simp only [List.forall_mem_cons] at hpath
    obtain ⟨hf, hg, hpath⟩ := hpath
    exact ih (fork_join.mpr ⟨(fork_join.mpr ⟨h.grown, hf⟩).grown, hg.blacken⟩)
      (sibling_redden hpath)
  | case6 s f g path hblack huncle hred =>
    simp only [List.forall_mem_cons] at hpath
    obtain ⟨hf, hg, hpath⟩ := hpath
    refine ⟨_, rfl, grown_plug (s := (lifted _ g).fill _) (Fork.grown ?_) hpath⟩
    by_cases hside : f.side = g.side
    · rw [turned_outer hside]
      exact fork_join.mpr ⟨h.grown, (fork_join.mpr ⟨hf, hg⟩).grown⟩
    · obtain ⟨b, e, c, y, rfl⟩ := exists_eq_join g.side h.grown.ne_nil
      obtain ⟨hb, he⟩ := fork_join.mp h
      rw [turned_inner hside]
      exact fork_join.mpr ⟨(fork_join.mpr ⟨hf, hb⟩).grown, (fork_join.mpr ⟨he, hg⟩).grown⟩

/-- Where a descent into a grown tree ends: under a black node, or under a red node that has no
children. -/
inductive Landing : Path α → Prop where
  | black {f : Frame α} {path : Path α} : f.color = .black → Tip f.sibling →
      (∀ h ∈ path, Grown h.sibling) → Landing (f :: path)
  | red {f g : Frame α} {path : Path α} : f.color = .red → f.sibling = .nil → g.color = .black →
      Tip g.sibling → (∀ h ∈ path, Grown h.sibling) → Landing (f :: g :: path)

section Descent

variable [LinearOrder κ] {key : α → κ} {k : κ}

theorem landing_tip (hs : Tip s) (hcolor : f.color = .black) (hf : Tip f.sibling)
    (hpath : ∀ h ∈ path, Grown h.sibling) : Landing (descend key k s (f :: path)) := by
  cases s with
  | nil => exact .black hcolor hf hpath
  | node l c x r =>
    obtain ⟨rfl, rfl, rfl⟩ := hs
    rw [descend]
    split
    · exact .red rfl rfl hcolor hf hpath
    · exact .red rfl rfl hcolor hf hpath

theorem landing_descend (hs : Grown s) (hpath : ∀ h ∈ path, Grown h.sibling) :
    Landing (descend key k s path) := by
  induction s generalizing path with
  | nil => exact hs.elim
  | node l c x r ihl ihr =>
    rw [descend]
    obtain ⟨hcolor, hl, hr⟩ | ⟨hl, hr⟩ := hs
    · split
      · exact landing_tip hl hcolor hr hpath
      · exact landing_tip hr hcolor hl hpath
    · split
      · exact ihl hl (List.forall_mem_cons.mpr ⟨hr, hpath⟩)
      · exact ihr hr (List.forall_mem_cons.mpr ⟨hl, hpath⟩)

end Descent

/-- The parent of the place is not a red left child without a sibling. -/
def HasUncle : Path α → Prop
  | f :: g :: _ => ¬(f.color = .red ∧ g.side = .left ∧ g.sibling = .nil)
  | _ => True

theorem tip_join {d : Side} : Tip (join d .nil .red x .nil) := by
  cases d <;> exact ⟨rfl, rfl, rfl⟩

/-- The rotations below a black node that has no other child. -/
theorem grown_lifted (hcolor : f.color = .red) (hf : f.sibling = .nil) (hg : g.sibling = .nil) :
    Grown ((lifted (turned (.node .nil .red x .nil) f g.side).2 g).fill
      (turned (.node .nil .red x .nil) f g.side).1) := by
  by_cases hside : f.side = g.side
  · rw [turned_outer hside, Frame.fill, lifted, hf, hg]
    exact grown_join_tips ⟨rfl, rfl, rfl⟩ tip_join
  · have hleaf : RbTree.node .nil .red x .nil = join g.side .nil .red x .nil := by
      cases g.side <;> rfl
    rw [hleaf, turned_inner hside, Frame.fill, lifted, hf, hg, hcolor]
    exact grown_join_tips tip_join tip_join

theorem grown_fixed (h : Landing path) (huncle : HasUncle path) :
    ∃ s', fixed (.node .nil .red x .nil) path = some s' ∧ Grown s' := by
  have hmap : ∀ {o : Option (RbTree α)}, (∃ s', o = some s' ∧ Grown s') →
      ∃ s', o.map RbTree.blacken = some s' ∧ Grown s' := by
    rintro o ⟨s', rfl, hs'⟩
    exact ⟨_, rfl, hs'.blacken⟩
  cases h with
  | black hcolor hf hpath =>
    rw [fixed, if_pos hcolor]
    refine ⟨_, rfl, grown_plug (s := Frame.fill _ _) ?_ hpath⟩
    rw [Frame.fill, hcolor]
    exact grown_join_tips ⟨rfl, rfl, rfl⟩ hf
  | @red f g path hcolor hf hg hsibling hpath =>
    have hno : ¬(g.side = .left ∧ g.sibling = .nil) := fun hnil => huncle ⟨hcolor, hnil⟩
    have hnot : ¬f.color = .black := by simp [hcolor]
    rw [fixed, if_neg hnot]
    refine hmap ?_
    rw [fixup, if_neg hnot, if_neg hno]
    by_cases hnil : g.sibling = .nil
    · rw [if_neg (by simp [hnil, RbTree.color])]
      exact ⟨_, rfl, grown_plug (s := Frame.fill _ _) (grown_lifted hcolor hf hnil) hpath⟩
    · obtain ⟨l, r, c, y, heq⟩ := exists_eq_join .left hnil
      rw [heq] at hsibling
      obtain ⟨rfl, rfl, rfl⟩ := hsibling
      rw [if_pos (by rw [heq]; rfl)]
      refine fixup_fork (fork_join.mpr ⟨?_, ?_⟩) (sibling_redden hpath)
      · rw [Frame.fill, parentBlack, hf]
        exact grown_join_tips ⟨rfl, rfl, rfl⟩ trivial
      · rw [uncleBlack, heq]
        exact .inl ⟨rfl, trivial, trivial⟩

theorem fixed_null (h : ¬HasUncle path) : fixed s path = none := by
  match path with
  | [] => exact absurd trivial h
  | [f] => exact absurd trivial h
  | f :: g :: path =>
    obtain ⟨hred, hside, hnil⟩ := not_not.mp h
    rw [fixed, hred, if_neg (by simp), fixup, hred, if_neg (by simp), if_pos ⟨hside, hnil⟩]
    rfl

end Shape

section Run

variable {K T : Type} [LinearOrder K] {es : List (Insertion K T)} {e : Insertion K T}
  {s : RbTree (Item K T)} {t : Rbtree K T}

theorem insertItem_nil {x : Item K T} : insertItem x .nil = some (.node .nil .black x .nil) := by
  rw [insertItem, descend, fixed, fixup]
  rfl

theorem grown_insertItem {x : Item K T} (hs : s = .nil ∨ Grown s)
    (huncle : HasUncle (descend Item.key x.key s [])) :
    ∃ s', insertItem x s = some s' ∧ Grown s' := by
  obtain rfl | hs := hs
  · exact ⟨_, insertItem_nil, Or.inl ⟨rfl, trivial, trivial⟩⟩
  · exact grown_fixed (landing_descend hs (by simp)) huncle

theorem run_grown (hrun : Run (Guarded Allowed Step) Rbtree.empty es t) :
    ∃ s, Represents t s ∧ (s = .nil ∨ Grown s) := by
  refine hrun.invariant (I := fun t => ∃ s, Represents t s ∧ (s = .nil ∨ Grown s))
    ⟨.nil, represents_empty, .inl rfl⟩ ?_
  rintro t e u ⟨s, hr, hs⟩ ⟨he, hstep⟩
  obtain ⟨s', hs', hr'⟩ := insert_ok hr he hstep
  by_cases huncle : HasUncle (descend Item.key e.item.key s [])
  · obtain ⟨s'', hs'', hgrown⟩ := grown_insertItem hs huncle
    obtain rfl := Option.some.inj (hs'.symm.trans hs'')
    exact ⟨s', hr', .inr hgrown⟩
  · rw [insertItem, fixed_null huncle] at hs'
    cases hs'

/-- A call of `insert` always ends, and it uses a null pointer exactly when the new node comes
under a red left child that has no sibling. -/
theorem insert_returns_iff (hrun : Run (Guarded Allowed Step) Rbtree.empty es t)
    (he : Allowed t e) :
    insert t e.key e.data e.address ≠ .error .endless ∧
      ∃ s, Represents t s ∧
        ((∃ t', Step t e t') ↔ HasUncle (descend Item.key e.key s [])) := by
  obtain ⟨s, hr, hs⟩ := run_grown hrun
  have hspec : Realizes (insert t e.key e.data e.address) (insertItem e.item s) :=
    insert_spec (x := e.item) hr he.2.2 ⟨he.1, he.2.1⟩
  by_cases huncle : HasUncle (descend Item.key e.key s [])
  · obtain ⟨s', hs', -⟩ := grown_insertItem (x := e.item) hs huncle
    rw [hs'] at hspec
    obtain ⟨t', ht', -⟩ := hspec
    exact ⟨by simp [ht'], s, hr, iff_of_true ⟨t', ht'⟩ huncle⟩
  · have hnone : insertItem e.item s = none := fixed_null huncle
    rw [hnone, Realizes] at hspec
    refine ⟨by simp [hspec], s, hr, iff_of_false ?_ huncle⟩
    rintro ⟨t', ht'⟩
    rw [Step, hspec] at ht'
    cases ht'

/-- The third of three keys in descending order. -/
theorem insert_descending : insertAll ([⟨3, 30, 16⟩, ⟨2, 20, 32⟩, ⟨1, 10, 48⟩] :
    List (Insertion Nat Nat)) = .error .null := by
  rfl

/-- In ascending order the third key comes under a red right child. -/
theorem insert_ascending : ∃ t t' : Rbtree Nat Nat,
    Run (Guarded Allowed Step) Rbtree.empty [⟨1, 10, 16⟩, ⟨2, 20, 32⟩] t ∧
      Step t ⟨3, 30, 48⟩ t' ∧ ∃ s, Represents t s ∧ HasUncle (descend Item.key 3 s []) := by
  obtain ⟨t', ht'⟩ := exists_of_isOk (x := insertAll ([⟨1, 10, 16⟩, ⟨2, 20, 32⟩] ++
    [⟨3, 30, 48⟩] : List (Insertion Nat Nat))) (by rfl)
  rw [insertAll, foldlM_snoc] at ht'
  obtain ⟨t, ht, hstep⟩ := ok_of_bind ht'
  have hrun := run_insertAll (by decide) (by decide) ht
  have he : Allowed t ⟨3, 30, 48⟩ := allowed_of_run hrun (by decide) (by decide)
  obtain ⟨-, s, hr, hreturns⟩ := insert_returns_iff hrun he
  exact ⟨t, t', hrun, hstep, s, hr, hreturns.mp ⟨t', hstep⟩⟩

end Run

end WagtailRbtree
