import Mathlib.Data.List.Basic

/-!
# Doubly linked lists through two pointer maps

`Seg next prev p l q` says that the nodes `l`, read from left to right, are
linked both ways, that the first node points back to `p` and the last one
forward to `q`. Everything an operation on such a list does is local: a
segment splits at any node, and a segment keeps its inner links when only the
outward pointers of its two ends change.
-/
namespace Links

variable {α : Type} {next prev next' prev' : α → α} {p p' q q' : α} {l l₁ l₂ : List α}

/-- The nodes `l` are linked both ways between `p` on the left and `q` on the right. -/
def Seg (next prev : α → α) : α → List α → α → Prop
  | _, [], _ => True
  | p, x :: l, q => prev x = p ∧ next x = l.headD q ∧ Seg next prev x l q

@[simp] theorem seg_nil : Seg next prev p [] q := trivial

@[simp] theorem seg_cons {x : α} :
    Seg next prev p (x :: l) q ↔ prev x = p ∧ next x = l.headD q ∧ Seg next prev x l q :=
  Iff.rfl

/-- The node to the left of what follows the segment. -/
def lastOr (p : α) (l : List α) : α := l.getLastD p

@[simp] theorem lastOr_nil : lastOr p [] = p := rfl
@[simp] theorem lastOr_cons {x : α} : lastOr p (x :: l) = lastOr x l := by
  cases l <;> rfl
@[simp] theorem lastOr_concat {x : α} : lastOr p (l ++ [x]) = x := by
  simp [lastOr]

theorem getLast?_eq_lastOr (h : lastOr p l ≠ p) : l.getLast? = some (lastOr p l) := by
  rcases List.eq_nil_or_concat l with rfl | ⟨l, x, rfl⟩
  · exact absurd rfl h
  · simp

/-- A segment splits at every seam. -/
theorem seg_append :
    Seg next prev p (l₁ ++ l₂) q ↔
      Seg next prev p l₁ (l₂.headD q) ∧ Seg next prev (lastOr p l₁) l₂ q := by
  induction l₁ generalizing p with
  | nil => simp
  | cons x l ih => simp [ih, and_assoc]

theorem Seg.next_eq {x : α} (h : Seg next prev p (l₁ ++ x :: l₂) q) : next x = l₂.headD q :=
  (seg_append.mp h).2.2.1

theorem Seg.prev_eq {x : α} (h : Seg next prev p (l₁ ++ x :: l₂) q) : prev x = lastOr p l₁ :=
  (seg_append.mp h).2.1

/-- Inside a segment the backward pointers are the inverse of the forward pointers. -/
theorem Seg.inverse {x y : α} (h : Seg next prev p l q) (hp : p ∉ l) (hq : q ∉ l) (hx : x ∈ l)
    (hy : y ∈ l) : next x = y ↔ prev y = x := by
  constructor
  · rintro rfl
    obtain ⟨l₁, l₂, rfl⟩ := List.append_of_mem hx
    have hn := h.next_eq
    cases l₂ with
    | nil => exact absurd (by rwa [hn] at hy) hq
    | cons z l₂ =>
      rw [List.append_cons] at h
      rw [hn, List.headD_cons, h.prev_eq, lastOr_concat]
  · rintro rfl
    obtain ⟨l₁, l₂, rfl⟩ := List.append_of_mem hy
    have hn := h.prev_eq
    rcases List.eq_nil_or_concat l₁ with rfl | ⟨l₁, z, rfl⟩
    · exact absurd (by rwa [hn] at hx) hp
    · rw [List.concat_eq_append] at h hn
      rw [hn, lastOr_concat]
      rw [List.append_assoc, List.singleton_append] at h
      exact h.next_eq

/-- Links between nodes that both maps still agree on are kept. -/
theorem Seg.congr (h : Seg next prev p l q) (hnext : ∀ x ∈ l, next' x = next x)
    (hprev : ∀ x ∈ l, prev' x = prev x) : Seg next' prev' p l q := by
  induction l generalizing p with
  | nil => trivial
  | cons x l ih =>
    obtain ⟨hp, hn, hl⟩ := h
    refine ⟨by rw [hprev x (by simp), hp], by rw [hnext x (by simp), hn], ih hl ?_ ?_⟩
    · exact fun y hy => hnext y (List.mem_cons_of_mem _ hy)
    · exact fun y hy => hprev y (List.mem_cons_of_mem _ hy)

/-- Retarget the right end: only the forward pointer of the last node moves. -/
theorem Seg.retarget_right (h : Seg next prev p l q) (hnd : l.Nodup)
    (hlast : ∀ x, l.getLast? = some x → next' x = q')
    (hnext : ∀ x ∈ l, l.getLast? ≠ some x → next' x = next x)
    (hprev : ∀ x ∈ l, prev' x = prev x) : Seg next' prev' p l q' := by
  induction l generalizing p with
  | nil => trivial
  | cons x l ih =>
    obtain ⟨hp, hn, hl⟩ := h
    obtain ⟨hx, hnd⟩ := List.nodup_cons.mp hnd
    cases l with
    | nil => exact ⟨by rw [hprev x (by simp), hp], hlast x rfl, trivial⟩
    | cons y l =>
      have hxl : (x :: y :: l).getLast? ≠ some x := by
        intro he
        rw [List.getLast?_cons_cons] at he
        exact hx (List.mem_of_getLast? he)
      refine ⟨by rw [hprev x (by simp), hp], by rw [hnext x (by simp) hxl, hn]; rfl, ?_⟩
      refine ih hl hnd ?_ ?_ ?_
      · exact fun z hz => hlast z (by rwa [List.getLast?_cons_cons])
      · exact fun z hz hne => hnext z (List.mem_cons_of_mem _ hz)
          (by rwa [List.getLast?_cons_cons])
      · exact fun z hz => hprev z (List.mem_cons_of_mem _ hz)

/-- Retarget the left end: only the backward pointer of the first node moves. -/
theorem Seg.retarget_left (h : Seg next prev p l q) (hnd : l.Nodup)
    (hhead : ∀ x, l.head? = some x → prev' x = p')
    (hprev : ∀ x ∈ l, l.head? ≠ some x → prev' x = prev x)
    (hnext : ∀ x ∈ l, next' x = next x) : Seg next' prev' p' l q := by
  cases l with
  | nil => trivial
  | cons x l =>
    obtain ⟨-, hn, hl⟩ := h
    obtain ⟨hx, -⟩ := List.nodup_cons.mp hnd
    refine ⟨hhead x rfl, by rw [hnext x (by simp), hn], hl.congr ?_ ?_⟩
    · exact fun y hy => hnext y (List.mem_cons_of_mem _ hy)
    · intro y hy
      refine hprev y (List.mem_cons_of_mem _ hy) ?_
      intro he
      rw [List.head?_cons, Option.some.injEq] at he
      exact hx (he ▸ hy)

section Edits

variable {n : α}

/-- Linking a new node in between `l₁` and `l₂` touches three pointers besides its own. -/
theorem Seg.insert (h : Seg next prev p (l₁ ++ l₂) q) (hnd : (l₁ ++ l₂).Nodup)
    (hleft : ∀ x, l₁.getLast? = some x → next' x = n)
    (hright : ∀ x, l₂.head? = some x → prev' x = n)
    (hn : next' n = l₂.headD q) (hp : prev' n = lastOr p l₁)
    (hnext : ∀ x ∈ l₁ ++ l₂, l₁.getLast? ≠ some x → next' x = next x)
    (hprev : ∀ x ∈ l₁ ++ l₂, l₂.head? ≠ some x → prev' x = prev x) :
    Seg next' prev' p (l₁ ++ n :: l₂) q := by
  obtain ⟨h₁, h₂⟩ := seg_append.mp h
  obtain ⟨hnd₁, hnd₂, hdis⟩ := List.nodup_append.mp hnd
  refine seg_append.mpr ⟨?_, hp, hn, ?_⟩
  · refine h₁.retarget_right hnd₁ hleft (fun x hx => hnext x (List.mem_append_left _ hx)) ?_
    intro x hx
    exact hprev x (List.mem_append_left _ hx)
      (fun he => hdis x hx x (List.mem_of_mem_head? he) rfl)
  · refine h₂.retarget_left hnd₂ hright (fun x hx => hprev x (List.mem_append_right _ hx)) ?_
    intro x hx
    exact hnext x (List.mem_append_right _ hx)
      (fun he => hdis x (List.mem_of_getLast? he) x hx rfl)

/-- Linking a node out of its list touches the pointers of its two neighbours. -/
theorem Seg.remove (h : Seg next prev p (l₁ ++ n :: l₂) q) (hnd : (l₁ ++ n :: l₂).Nodup)
    (hleft : ∀ x, l₁.getLast? = some x → next' x = l₂.headD q)
    (hright : ∀ x, l₂.head? = some x → prev' x = lastOr p l₁)
    (hnext : ∀ x ∈ l₁ ++ l₂, l₁.getLast? ≠ some x → next' x = next x)
    (hprev : ∀ x ∈ l₁ ++ l₂, l₂.head? ≠ some x → prev' x = prev x) :
    Seg next' prev' p (l₁ ++ l₂) q := by
  obtain ⟨h₁, -, -, h₂⟩ := seg_append.mp h
  obtain ⟨hnd₁, hnd₂, hdis⟩ := List.nodup_append.mp hnd
  have hdis' : ∀ x ∈ l₁, ∀ y ∈ l₂, x ≠ y :=
    fun x hx y hy => hdis x hx y (List.mem_cons_of_mem _ hy)
  refine seg_append.mpr ⟨?_, ?_⟩
  · refine h₁.retarget_right hnd₁ hleft (fun x hx => hnext x (List.mem_append_left _ hx)) ?_
    intro x hx
    exact hprev x (List.mem_append_left _ hx)
      (fun he => hdis' x hx x (List.mem_of_mem_head? he) rfl)
  · refine h₂.retarget_left (List.nodup_cons.mp hnd₂).2 hright
      (fun x hx => hprev x (List.mem_append_right _ hx)) ?_
    intro x hx
    exact hnext x (List.mem_append_right _ hx)
      (fun he => hdis' x (List.mem_of_getLast? he) x hx rfl)

/-! The pointers that a program writes: those of the node itself, and one in each neighbour, as
far as there is one. -/

theorem headD_ne {x : α} (h0 : x ≠ q) (hx : x ∉ l) : l.headD q ≠ x := by
  cases l with
  | nil => exact h0.symm
  | cons y l => exact fun he => hx (by simp_all)

theorem head?_of_headD {x : α} (h : l.headD q = x) (h0 : x ≠ q) : l.head? = some x := by
  cases l with
  | nil => exact absurd h.symm h0
  | cons y l => simpa using h

theorem headD_of_head? {x : α} (h : l.head? = some x) : l.headD q = x := by
  cases l <;> simp_all

theorem lastOr_of_getLast? {x : α} (h : l.getLast? = some x) : lastOr p l = x := by
  rw [lastOr, List.getLastD_eq_getLast?, h]
  rfl

variable [DecidableEq α] {a : α}

/-- A new node is linked in behind `a`. -/
theorem Seg.insertAfter (h : Seg next prev p (l₁ ++ a :: l₂) q) (hnd : (l₁ ++ a :: l₂).Nodup)
    (hn : n ∉ l₁ ++ a :: l₂) (hq : q ∉ l₂) :
    Seg (fun x => if x = n then next a else if x = a then n else next x)
      (fun x => if x = n then a else if x = next a ∧ next a ≠ q then n else prev x) p
      (l₁ ++ a :: n :: l₂) q := by
  have hnext := h.next_eq
  have hna : a ≠ n := fun he => hn (by simp [he])
  rw [List.append_cons] at h hnd hn ⊢
  refine h.insert hnd ?_ ?_ ?_ ?_ ?_ ?_
  · intro x hx
    obtain rfl : a = x := by simpa using hx
    simp [hna]
  · intro x hx
    have hmem := List.mem_of_mem_head? hx
    have hxn : x ≠ n := fun he => hn (he ▸ List.mem_append_right _ hmem)
    have hxq : x ≠ q := fun he => hq (he ▸ hmem)
    have hxa : x = next a := (hnext.trans (headD_of_head? hx)).symm
    simp [hxn, ← hxa, hxq]
  · simp [hnext]
  · simp
  · intro x hx hlast
    have hxn : x ≠ n := fun he => hn (he ▸ hx)
    have hxa : x ≠ a := fun he => hlast (by simp [he])
    simp [hxn, hxa]
  · intro x hx hhead
    have hxn : x ≠ n := fun he => hn (he ▸ hx)
    have hxa : ¬ (x = next a ∧ next a ≠ q) := by
      rintro ⟨hxa, h0⟩
      exact hhead (head?_of_headD (hxa.trans hnext).symm (hxa ▸ h0))
    simp [hxn, hxa]

/-- A new node is linked in in front of `a`. -/
theorem Seg.insertBefore (h : Seg next prev p (l₁ ++ a :: l₂) q) (hnd : (l₁ ++ a :: l₂).Nodup)
    (hn : n ∉ l₁ ++ a :: l₂) (hp : p ∉ l₁) :
    Seg (fun x => if x = n then a else if x = prev a ∧ prev a ≠ p then n else next x)
      (fun x => if x = n then prev a else if x = a then n else prev x) p
      (l₁ ++ n :: a :: l₂) q := by
  have hprev := h.prev_eq
  have hna : a ≠ n := fun he => hn (by simp [he])
  refine h.insert hnd ?_ ?_ ?_ ?_ ?_ ?_
  · intro x hx
    have hmem := List.mem_of_getLast? hx
    have hxn : x ≠ n := fun he => hn (he ▸ List.mem_append_left _ hmem)
    have hxp : x ≠ p := fun he => hp (he ▸ hmem)
    have hxa : x = prev a := (hprev.trans (lastOr_of_getLast? hx)).symm
    simp [hxn, ← hxa, hxp]
  · intro x hx
    obtain rfl : a = x := by simpa using hx
    simp [hna]
  · simp
  · simp [hprev]
  · intro x hx hlast
    have hxn : x ≠ n := fun he => hn (he ▸ hx)
    have hxa : ¬ (x = prev a ∧ prev a ≠ p) := by
      rintro ⟨rfl, h0⟩
      rw [hprev] at h0 hlast
      exact hlast (getLast?_eq_lastOr h0)
    simp [hxn, hxa]
  · intro x hx hhead
    have hxn : x ≠ n := fun he => hn (he ▸ hx)
    have hxa : x ≠ a := fun he => hhead (by simp [he])
    simp [hxn, hxa]

/-- The node behind `a` is linked out. -/
theorem Seg.removeAfter (h : Seg next prev p (l₁ ++ a :: n :: l₂) q)
    (hnd : (l₁ ++ a :: n :: l₂).Nodup) (hq : q ∉ l₂) :
    Seg (fun x => if x = a then next n else next x)
      (fun x => if x = next n ∧ next n ≠ q then a else prev x) p (l₁ ++ a :: l₂) q := by
  rw [List.append_cons] at h hnd ⊢
  have hnext := h.next_eq
  refine h.remove hnd ?_ ?_ ?_ ?_
  · intro x hx
    obtain rfl : a = x := by simpa using hx
    simp [hnext]
  · intro x hx
    have hxq : x ≠ q := fun he => hq (he ▸ List.mem_of_mem_head? hx)
    have hxn : x = next n := (hnext.trans (headD_of_head? hx)).symm
    simp [← hxn, hxq]
  · intro x _ hlast
    have hxa : x ≠ a := fun he => hlast (by simp [he])
    simp [hxa]
  · intro x _ hhead
    have hxn : ¬ (x = next n ∧ next n ≠ q) := by
      rintro ⟨hxn, h0⟩
      exact hhead (head?_of_headD (hxn.trans hnext).symm (hxn ▸ h0))
    simp [hxn]

end Edits

end Links
