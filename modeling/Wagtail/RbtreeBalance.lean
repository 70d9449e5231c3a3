import Wagtail.RbtreeRuns

/-!
# When insertions keep the tree balanced

Below a red uncle the fixup turns the node above the grandparent red, where the grandparent
itself has to turn red. The grandparent then has a black node too many below it, and the
rest of the fixup makes up for that only if it takes the grandparent apart again.
-/
namespace WagtailRbtree

open RedBlack
open Runs (Run Guarded exists_of_isOk foldlM_snoc)

section Balance

variable {α : Type} {s s' u : RbTree α} {path : Path α} {f g : Frame α} {x : α} {n : Nat}

/-- The rotations above a grandparent that has kept its colour take it apart. -/
def Absorbs : Path α → Prop
  | [] => True
  | [_] => False
  | h :: i :: _ => h.color = .red ∧ i.sibling.color = .black ∧ h.side ≠ i.side

/-- The fixup at this place makes no recolouring that matters. -/
def Settles : Path α → Prop
  | f :: g :: path => f.color = .red → g.sibling.color = .red → Absorbs path
  | _ => True

instance (path : Path α) : Decidable (Absorbs path) :=
  match path with
  | [] => isTrue trivial
  | [_] => isFalse id
  | _ :: _ :: _ => inferInstanceAs (Decidable (_ ∧ _ ∧ _))

instance (path : Path α) : Decidable (Settles path) :=
  match path with
  | [] => isTrue trivial
  | [_] => isTrue trivial
  | f :: g :: path =>
    inferInstanceAs (Decidable (f.color = .red → g.sibling.color = .red → Absorbs path))

theorem blacks_lifted : Blacks ((lifted f g).fill s) n ↔
    ∃ m, n = m + 1 ∧ Blacks s m ∧ Blacks f.sibling m ∧ Blacks g.sibling m := by
  simp [lifted, Frame.fill, blacks_join, Color.blacks]

theorem parted_lifted : Parted ((lifted f g).fill s) ↔ Parted s ∧
    (f.sibling.color = .black ∧ g.sibling.color = .black) ∧
      Parted f.sibling ∧ Parted g.sibling := by
  simp [lifted, Frame.fill, parted_join]

/-- The loop does not repair a subtree that it starts with. -/
theorem blacks_of_fixup (hs : s ≠ .nil) (h : fixup s path = some s') (hb : ∃ n, Blacks s' n) :
    ∃ n, Blacks s n := by
  fun_induction fixup s path with
  | case1 s => exact Option.some.inj h ▸ hb
  | case2 s f =>
    obtain ⟨n, hn, -⟩ := blacks_plug.mp (Option.some.inj h ▸ hb)
    exact ⟨n, hn⟩
  | case3 s f g path hblack =>
    obtain ⟨n, hn, -⟩ := blacks_plug.mp (Option.some.inj h ▸ hb)
    exact ⟨n, hn⟩
  | case4 s f g path hblack huncle => cases h
  | case5 s f g path hblack huncle hred ih =>
    obtain ⟨_, hgrand⟩ := ih join_ne_nil h
    obtain ⟨_, -, hparent, -⟩ := blacks_join.mp hgrand
    obtain ⟨n, -, hn, -⟩ := blacks_join.mp hparent
    exact ⟨n, hn⟩
  | case6 s f g path hblack huncle hred =>
    obtain ⟨_, hlifted, -⟩ := (blacks_plug (t := (lifted _ g).fill _)).mp (Option.some.inj h ▸ hb)
    obtain ⟨m, -, hturned, hsibling, -⟩ := blacks_lifted.mp hlifted
    by_cases hside : f.side = g.side
    · rw [turned_outer hside] at hturned
      exact ⟨m, hturned⟩
    · obtain ⟨b, e, c, y, rfl⟩ := exists_eq_join g.side hs
      rw [turned_inner hside] at hturned hsibling
      obtain ⟨i, rfl, -, hi⟩ := blacks_join.mp hturned
      rw [Color.eq_red hblack] at hsibling
      exact ⟨_, blacks_join.mpr ⟨i, rfl, hi, hsibling⟩⟩

/-- A grandparent after a recolouring, as it should be but for its colour: black with two black
children. -/
structure Heavy (t : RbTree α) (n : Nat) : Prop where
  color : t.color = .black
  ne_nil : t ≠ .nil
  parted : Parted t
  blacks : ∀ d, Blacks (t.child d) n
  black : ∀ d, (t.child d).color = .black

theorem Heavy.join (h : Heavy s n) (d : Side) : ∃ b y e, s = join d b .black y e ∧
    (Blacks b n ∧ Blacks e n) ∧ (b.color = .black ∧ e.color = .black) ∧ Parted b ∧ Parted e := by
  obtain ⟨b, e, c, y, rfl⟩ := exists_eq_join d h.ne_nil
  have hc := h.color
  rw [color_join] at hc
  subst hc
  have hb := h.blacks d
  have he := h.blacks d.other
  have hb' := h.black d
  have he' := h.black d.other
  rw [child_join] at hb hb'
  rw [child_other_join] at he he'
  exact ⟨b, y, e, rfl, ⟨hb, he⟩, ⟨hb', he'⟩, (parted_join.mp h.parted).2⟩

theorem Heavy.blacks_eq (h : Heavy s n) {m : Nat} (hm : Blacks s m) : m = n + 1 := by
  obtain ⟨b, y, e, rfl, ⟨hb, -⟩, -⟩ := h.join .left
  obtain ⟨i, rfl, hi, -⟩ := blacks_join.mp hm
  rw [hi.unique hb]
  rfl

/-- It does not fit beside a tree with as many black nodes as it had before. -/
theorem Heavy.unbalanced (h : Heavy s n) (hu : Blacks u n) {d : Side} {c : Color} :
    ¬∃ m, Blacks (RedBlack.join d s c x u) m := by
  rintro ⟨_, hm⟩
  obtain ⟨m, -, hs, hu'⟩ := blacks_join.mp hm
  have hm := h.blacks_eq hs
  have hn := hu'.unique hu
  omega

theorem valid_blacken (hp : Parted s) (hb : ∃ n, Blacks s n) : Valid s.blacken :=
  ⟨color_blacken, hp.blacken, blacks_blacken.mpr hb⟩

theorem Heavy.fixup_iff (h : Heavy s n) (hp : PartedPath .black path) (hb : BlacksPath n path)
    (hroot : rootColor .black path = .black) (hfix : fixup s (redden path) = some s') :
    Valid s'.blacken ↔ Absorbs path := by
  match path with
  | [] =>
    rw [redden, fixup] at hfix
    obtain rfl := Option.some.inj hfix
    obtain ⟨b, y, e, rfl, ⟨hb, he⟩, -, -⟩ := h.join .left
    exact iff_of_true (valid_blacken h.parted ⟨_, blacks_join.mpr ⟨n, rfl, hb, he⟩⟩) trivial
  | [i] =>
    rw [redden, fixup] at hfix
    obtain rfl := Option.some.inj hfix
    refine iff_of_false (fun hvalid => ?_) id
    exact h.unbalanced hb.1 (blacks_blacken.mp hvalid.blacks)
  | i :: j :: path =>
    obtain ⟨hi, hparti, hj, hpartj, hpath⟩ := hp
    obtain ⟨hbi, hbj, hbpath⟩ := hb
    rw [redden, fixup, if_neg (by simp)] at hfix
    split_ifs at hfix with huncle hred
    · -- a second recolouring: the grandparent stays beside its sibling
      refine iff_of_false (fun hvalid => ?_) fun habsorbs => ?_
      · obtain ⟨_, hgrand⟩ := blacks_of_fixup join_ne_nil hfix (blacks_blacken.mp hvalid.blacks)
        obtain ⟨m, -, hparent, -⟩ := blacks_join.mp hgrand
        exact h.unbalanced hbi ⟨m, hparent⟩
      · have hblack := habsorbs.2.1
        rw [hred] at hblack
        cases hblack
    · obtain rfl := Option.some.inj hfix
      by_cases hside : i.side = j.side
      · -- an outer child is not taken apart
        rw [turned_outer (f := ⟨i.side, .red, i.label, i.sibling⟩) hside]
        refine iff_of_false (fun hvalid => ?_) fun habsorbs => absurd hside habsorbs.2.2
        obtain ⟨_, hn, -⟩ := (blacks_plug (t := (lifted _ j).fill s)).mp
          (blacks_blacken.mp hvalid.blacks)
        obtain ⟨m, -, hs, hm, -⟩ := blacks_lifted.mp hn
        exact h.unbalanced (c := .red) (x := j.label) (d := .left) hbi
          ⟨_, blacks_join.mpr ⟨m, rfl, hs, hm⟩⟩
      · obtain ⟨b, y, e, rfl, ⟨hbb, hbe⟩, ⟨hcb, hce⟩, hpb, hpe⟩ := h.join j.side
        rw [turned_inner (f := ⟨i.side, .red, i.label, i.sibling⟩) hside]
        constructor
        · intro hvalid
          obtain ⟨_, hn, -⟩ := (blacks_plug (t := (lifted _ j).fill _)).mp
            (blacks_blacken.mp hvalid.blacks)
          obtain ⟨m, -, hu, -, hm⟩ := blacks_lifted.mp hn
          obtain ⟨_, rfl, -, hb⟩ := blacks_join.mp hu
          have hbn := hb.unique hbb
          have hjn := hm.unique hbj
          refine ⟨Color.eq_red fun hblack => ?_, Color.eq_black hred, hside⟩
          rw [hblack] at hjn
          simp only [Color.blacks] at hjn
          omega
        · rintro ⟨hired, hjblack, -⟩
          have hjcolor : j.color = .black := Color.eq_black fun hjred => by
            have hblack := (hj hjred).1
            rw [hired] at hblack
            cases hblack
          rw [hired] at hbj hbpath
          rw [hjcolor] at hbpath hpath
          refine valid_blacken ((parted_plug (t := (lifted _ j).fill _)).mpr ⟨?_, ?_⟩)
            ((blacks_plug (t := (lifted _ j).fill _)).mpr ⟨n + 1, ?_, hbpath⟩)
          · exact parted_lifted.mpr ⟨parted_join.mpr ⟨fun _ => ⟨(hi hired).2, hcb⟩, hparti, hpb⟩,
              ⟨hce, hjblack⟩, hpe, hpartj⟩
          · rw [Frame.fill, color_join]
            exact hpath
          · exact blacks_lifted.mpr ⟨n, rfl, blacks_join.mpr ⟨n, rfl, hbi, hbb⟩, hbe, hbj⟩

theorem heavy_join {d : Side} {b e : RbTree α} (hb : Blacks b n ∧ Blacks e n)
    (hc : b.color = .black ∧ e.color = .black) (hp : Parted b ∧ Parted e) :
    Heavy (join d b .black x e) n := by
  refine ⟨color_join, join_ne_nil, parted_join.mpr ⟨nofun, hp⟩, fun d' => ?_, fun d' => ?_⟩
  · by_cases hd : d' = d
    · rw [hd, child_join]
      exact hb.1
    · rw [Side.eq_other hd, child_other_join]
      exact hb.2
  · by_cases hd : d' = d
    · rw [hd, child_join]
      exact hc.1
    · rw [Side.eq_other hd, child_other_join]
      exact hc.2

theorem blacks_leaf : Blacks (.node .nil .red x .nil) 0 := ⟨0, rfl, rfl, rfl⟩

theorem parted_leaf : Parted (.node .nil .red x .nil) := ⟨fun _ => ⟨rfl, rfl⟩, trivial, trivial⟩

/-- The rotations for a new node are right. -/
theorem valid_rotated (hf : f.color = .red) (hg : g.sibling.color = .black)
    (hp : PartedPath .black (f :: g :: path)) (hb : BlacksPath 0 (f :: g :: path)) :
    Valid (plug (turned (.node .nil .red x .nil) f g.side).1
      (lifted (turned (.node .nil .red x .nil) f g.side).2 g :: path)).blacken := by
  obtain ⟨hfred, hpf, hgred, hpg, hpath⟩ := hp
  obtain ⟨hbf, hbg, hbpath⟩ := hb
  have hgcolor : g.color = .black := Color.eq_black fun hred => by
    have hblack := (hgred hred).1
    rw [hf] at hblack
    cases hblack
  rw [hf] at hbg hbpath
  rw [hgcolor] at hpath hbpath
  have hlifted : ∀ {u f'}, Blacks u 0 → Blacks f'.sibling 0 → Parted u → Parted f'.sibling →
      f'.sibling.color = .black → Valid (plug u (lifted f' g :: path)).blacken := by
    intro u f' hbu hbf hpu hpf hcf
    refine valid_blacken ((parted_plug (t := (lifted f' g).fill u)).mpr ⟨?_, ?_⟩)
      ((blacks_plug (t := (lifted f' g).fill u)).mpr ⟨1, ?_, hbpath⟩)
    · exact parted_lifted.mpr ⟨hpu, ⟨hcf, hg⟩, hpf, hpg⟩
    · rw [Frame.fill, color_join]
      exact hpath
    · exact blacks_lifted.mpr ⟨0, rfl, hbu, hbf, hbg⟩
  by_cases hside : f.side = g.side
  · rw [turned_outer hside]
    exact hlifted blacks_leaf hbf parted_leaf hpf (hfred hf).2
  · have hleaf : RbTree.node .nil .red x .nil = join g.side .nil .red x .nil := by
      cases g.side <;> rfl
    rw [hleaf, turned_inner hside]
    refine hlifted ?_ rfl ?_ trivial rfl
    · rw [hf]
      exact blacks_join.mpr ⟨0, rfl, hbf, rfl⟩
    · exact parted_join.mpr ⟨fun _ => ⟨(hfred hf).2, rfl⟩, hpf, trivial⟩

/-- The fixup of a new node keeps a red-black tree exactly where it makes no wrong recolouring, or
one that the next turn undoes. -/
theorem valid_fixed_iff (hv : Valid (plug .nil path))
    (h : fixed (.node .nil .red x .nil) path = some s') : Valid s' ↔ Settles path := by
  have hroot := hv.root
  rw [color_plug] at hroot
  have hp := (parted_plug.mp hv.parted).2
  obtain ⟨n, rfl, hb⟩ := blacks_plug.mp hv.blacks
  cases path with
  | nil =>
    rw [fixed, fixup] at h
    obtain rfl := Option.some.inj h
    exact iff_of_true (valid_blacken parted_leaf ⟨0, blacks_leaf⟩) trivial
  | cons f path =>
    rw [fixed] at h
    split_ifs at h with hblack
    · obtain rfl := Option.some.inj h
      have hnot : f.color ≠ .red := by simp [hblack]
      have hroom : PartedPath .red (f :: path) := ⟨fun hred => absurd hred hnot, hp.2⟩
      refine iff_of_true
        ⟨?_, parted_plug.mpr ⟨parted_leaf, hroom⟩, blacks_plug.mpr ⟨0, blacks_leaf, hb⟩⟩ ?_
      · rw [color_plug]
        exact hroot
      · cases path with
        | nil => trivial
        | cons g path => exact fun hred => absurd hred hnot
    · have hf := Color.eq_red hblack
      cases path with
      | nil => exact absurd hroot hblack
      | cons g path =>
        obtain ⟨u, hu, rfl⟩ := Option.map_eq_some_iff.mp h
        rw [fixup, if_neg hblack] at hu
        split_ifs at hu with huncle hred
        · obtain ⟨hfred, hpf, hgred, hpg, hpath⟩ := hp
          obtain ⟨hbf, hbg, hbpath⟩ := hb
          have hgcolor : g.color = .black := Color.eq_black fun hred => hblack (hgred hred).1
          rw [hf] at hbg hbpath
          rw [hgcolor] at hpath hbpath
          have hparent : Blacks ((parentBlack f).fill (.node .nil .red x .nil)) 1 :=
            blacks_join.mpr ⟨0, rfl, blacks_leaf, hbf⟩
          have hheavy : Heavy ((uncleBlack g).fill ((parentBlack f).fill (.node .nil .red x .nil)))
              1 := by
            rw [uncleBlack, hgcolor]
            exact heavy_join ⟨hparent, hbg.blacken hred⟩ ⟨color_join, color_blacken⟩
              ⟨parted_join.mpr ⟨Color.noConfusion, parted_leaf, hpf⟩, hpg.blacken⟩
          have hgroot : rootColor .black path = .black := hgcolor ▸ hroot
          have habsorbs := hheavy.fixup_iff hpath hbpath hgroot hu
          exact habsorbs.trans ⟨fun ha _ _ => ha, fun ha => ha hf hred⟩
        · obtain rfl := Option.some.inj hu
          refine iff_of_true ?_ fun _ hg => absurd hg hred
          exact valid_rotated hf (Color.eq_black hred) hp hb

end Balance

section Run

variable {K T : Type} [LinearOrder K] {es : List (Insertion K T)} {e : Insertion K T}
  {s : RbTree (Item K T)} {t t' : Rbtree K T}

/-- The nodes in memory are a red-black tree. -/
def Balanced (t : Rbtree K T) : Prop :=
  ∃ s, Represents t s ∧ Valid s ∧ s.height ≤ 2 * Nat.log 2 (s.size + 1)

/-- The fixup of this insertion leaves a red-black tree. -/
def Settled (t : Rbtree K T) (e : Insertion K T) : Prop :=
  Allowed t e ∧ ∀ s, Represents t s → Settles (descend Item.key e.key s [])

omit [LinearOrder K] in
theorem balanced_iff (h : Represents t s) : Balanced t ↔ Valid s := by
  constructor
  · rintro ⟨s', h', hv, -⟩
    exact h.unique h' ▸ hv
  · exact fun hv => ⟨s, h, hv, hv.height_le⟩

theorem balanced_step (hbal : Balanced t) (he : Allowed t e) (hstep : Step t e t') :
    Balanced t' ↔ Settled t e := by
  obtain ⟨s, hr, hv, -⟩ := hbal
  obtain ⟨s', hs', hr'⟩ := insert_ok hr he hstep
  have hplug : Valid (plug .nil (descend Item.key e.item.key s [])) := by
    rw [plug_descend]
    exact hv
  rw [balanced_iff hr', valid_fixed_iff hplug hs']
  constructor
  · exact fun h => ⟨he, fun s₁ hr₁ => hr.unique hr₁ ▸ h⟩
  · exact fun h => h.2 s hr

theorem balanced_run (hrun : Run (Guarded Settled Step) Rbtree.empty es t) : Balanced t := by
  refine hrun.invariant (I := Balanced) ?_ fun t e u hbal ⟨he, hstep⟩ =>
    (balanced_step hbal he.1 hstep).mpr he
  exact (balanced_iff represents_empty).mpr ⟨rfl, trivial, 0, rfl⟩

/-- Where every insertion meets the condition, the tree is a red-black tree after each of them;
and the first insertion that returns without meeting it leaves something else. -/
theorem balanced_of_run (hrun : Run (Guarded Settled Step) Rbtree.empty es t) :
    Balanced t ∧ ∀ e t', Allowed t e → Step t e t' → (Balanced t' ↔ Settled t e) :=
  ⟨balanced_run hrun, fun _ _ he hstep => balanced_step (balanced_run hrun) he hstep⟩

/-- An insertion that meets the condition, as a function of the tree. -/
def settle (s : RbTree (Item K T)) (e : Insertion K T) : Option (RbTree (Item K T)) :=
  if Settles (descend Item.key e.key s []) then insertItem e.item s else none

theorem run_allowed (hrun : Run (Guarded Settled Step) Rbtree.empty es t) :
    Run (Guarded Allowed Step) Rbtree.empty es t := by
  induction hrun with
  | nil => exact .nil
  | snoc _ hstep ih => exact ih.snoc ⟨hstep.1.1, hstep.2⟩

theorem settled_run (hd : (es.map Insertion.address).Nodup)
    (hb : ∀ e ∈ es, 0 < e.address ∧ e.address < 2 ^ 32) (h : es.foldlM settle .nil = some s) :
    ∃ t, Run (Guarded Settled Step) Rbtree.empty es t ∧ Represents t s := by
  induction es using List.reverseRecOn generalizing s with
  | nil =>
    obtain rfl := Option.some.inj h
    exact ⟨_, .nil, represents_empty⟩
  | append_singleton es e ih =>
    rw [foldlM_snoc, Option.bind_eq_bind, Option.bind_eq_some_iff] at h
    obtain ⟨u, hu, hsettle⟩ := h
    rw [List.map_append, List.map_singleton, List.nodup_append] at hd
    obtain ⟨t, hrun, hr⟩ := ih hd.1 (fun e he => hb e (by simp [he])) hu
    have hallowed : Allowed t e := allowed_of_run (run_allowed hrun) (hb e (by simp))
      fun e' he' => hd.2.2 _ (List.mem_map_of_mem he') _ (by simp)
    rw [settle] at hsettle
    split_ifs at hsettle with hsettles
    have hspec := insert_spec (x := e.item) hr hallowed.2.2 ⟨hallowed.1, hallowed.2.1⟩
    rw [hsettle] at hspec
    obtain ⟨t', ht', hr'⟩ := hspec
    exact ⟨t', hrun.snoc ⟨⟨hallowed, fun s₁ hr₁ => hr.unique hr₁ ▸ hsettles⟩, ht'⟩, hr'⟩

/-- A recolouring below the root. -/
theorem balanced_of_four : ∃ t : Rbtree Nat Nat,
    Run (Guarded Settled Step) Rbtree.empty
      [⟨2, 20, 16⟩, ⟨1, 10, 32⟩, ⟨3, 30, 48⟩, ⟨4, 40, 64⟩] t ∧
    Balanced t ∧ ∀ e t', Allowed t e → Step t e t' → (Balanced t' ↔ Settled t e) := by
  obtain ⟨s, hs⟩ := Option.isSome_iff_exists.mp (show (([⟨2, 20, 16⟩, ⟨1, 10, 32⟩, ⟨3, 30, 48⟩,
    ⟨4, 40, 64⟩] : List (Insertion Nat Nat)).foldlM settle .nil).isSome = true by decide +kernel)
  obtain ⟨t, hrun, -⟩ := settled_run (by decide) (by decide) hs
  exact ⟨t, hrun, balanced_of_run hrun⟩

/-- The sixth of these keys is the first one that turns the root red below it. -/
theorem unbalanced_of_six : ∃ t : Rbtree Nat Nat,
    Run (Guarded Allowed Step) Rbtree.empty [⟨4, 40, 16⟩, ⟨2, 20, 32⟩, ⟨6, 60, 48⟩, ⟨7, 70, 64⟩,
      ⟨8, 80, 80⟩, ⟨9, 90, 96⟩] t ∧ ¬Balanced t := by
  have hfive : ([⟨4, 40, 16⟩, ⟨2, 20, 32⟩, ⟨6, 60, 48⟩, ⟨7, 70, 64⟩, ⟨8, 80, 80⟩] :
      List (Insertion Nat Nat)).foldlM settle .nil =
        some (.node (.node .nil .black ⟨32, 2, 20⟩ .nil) .black ⟨16, 4, 40⟩
          (.node (.node .nil .red ⟨48, 6, 60⟩ .nil) .black ⟨64, 7, 70⟩
            (.node .nil .red ⟨80, 8, 80⟩ .nil))) := by decide +kernel
  obtain ⟨t, hrun, hr⟩ := settled_run (by decide) (by decide) hfive
  have he : Allowed t ⟨9, 90, 96⟩ := allowed_of_run (run_allowed hrun) (by decide) (by decide)
  obtain ⟨s', hs'⟩ := Option.isSome_iff_exists.mp (show (insertItem (⟨96, 9, 90⟩ : Item Nat Nat)
    (.node (.node .nil .black ⟨32, 2, 20⟩ .nil) .black ⟨16, 4, 40⟩
      (.node (.node .nil .red ⟨48, 6, 60⟩ .nil) .black ⟨64, 7, 70⟩
        (.node .nil .red ⟨80, 8, 80⟩ .nil)))).isSome = true by decide +kernel)
  have hspec := insert_spec (x := ⟨96, 9, 90⟩) hr he.2.2 ⟨he.1, he.2.1⟩
  rw [hs'] at hspec
  obtain ⟨t', ht', hr'⟩ := hspec
  have hbal := balanced_run hrun
  refine ⟨t', (run_allowed hrun).snoc ⟨he, ht'⟩, fun hbal' => ?_⟩
  have hsettled := ((balanced_step hbal he ht').mp hbal').2 _ hr
  revert hsettled
  decide

end Run

end WagtailRbtree
