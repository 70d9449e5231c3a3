import Mathlib.Logic.Function.Basic
import Mathlib.Tactic.Common

/-!
# Sparse two-level tables

Rows refer to leaves, which are made for the first entry of a row and freed
with the last one. While no two rows share a leaf and no leaf is empty, the
table is a partial map from rows and columns, and the operations are the ones
of that map.
-/
namespace Sparse

variable {ι ρ κ α : Type}

/-- The leaf of each row and the contents of the leaves that there are. -/
@[ext] structure Table (ι ρ κ α : Type) where
  row : ι → Option ρ
  leaf : ρ → Option (κ → Option α)

/-- The partial map. -/
def Table.lookup (t : Table ι ρ κ α) (i : ι) (k : κ) : Option α :=
  (t.row i).bind fun r => (t.leaf r).bind fun leaf => leaf k

/-- No leaf is shared, dangling, empty or lost. -/
structure Table.Tidy (t : Table ι ρ κ α) : Prop where
  injective : ∀ i j r, t.row i = some r → t.row j = some r → i = j
  live : ∀ i r, t.row i = some r → ∃ leaf, t.leaf r = some leaf ∧ ∃ k, leaf k ≠ none
  owned : ∀ r leaf, t.leaf r = some leaf → ∃ i, t.row i = some r

variable {t : Table ι ρ κ α} {i j : ι} {k l : κ} {r : ρ}
  {leaf : κ → Option α}

theorem Table.lookup_of_leaf (hrow : t.row i = some r)
    (hleaf : t.leaf r = some leaf) : t.lookup i k = leaf k := by
  simp [lookup, hrow, hleaf]

theorem Table.lookup_of_none (hrow : t.row i = none) : t.lookup i k = none := by
  simp [lookup, hrow]

/-- A row whose leaf stays as it is. -/
theorem Table.lookup_congr {t' : Table ι ρ κ α} (hrow : t'.row j = t.row j)
    (hleaf : ∀ s, t.row j = some s → t'.leaf s = t.leaf s) : t'.lookup j l = t.lookup j l := by
  unfold lookup
  rw [hrow]
  cases hj : t.row j with
  | none => rfl
  | some s => rw [Option.bind_some, Option.bind_some, hleaf s hj]

/-- A row has a leaf exactly if it has an entry. -/
theorem Table.Tidy.row_iff (h : t.Tidy) : t.row i ≠ none ↔ ∃ k, t.lookup i k ≠ none := by
  constructor
  · intro hrow
    obtain ⟨r, hr⟩ := Option.ne_none_iff_exists'.mp hrow
    obtain ⟨leaf, hleaf, k, hk⟩ := h.live i r hr
    exact ⟨k, by rwa [lookup_of_leaf hr hleaf]⟩
  · rintro ⟨k, hk⟩ hrow
    exact hk (lookup_of_none hrow)

/-- A leaf is there exactly if a row refers to it. -/
theorem Table.Tidy.leaf_iff (h : t.Tidy) : t.leaf r ≠ none ↔ ∃ i, t.row i = some r := by
  constructor
  · intro hleaf
    obtain ⟨leaf, hleaf⟩ := Option.ne_none_iff_exists'.mp hleaf
    exact h.owned r leaf hleaf
  · rintro ⟨i, hrow⟩
    obtain ⟨leaf, hleaf, -⟩ := h.live i r hrow
    simp [hleaf]

/-- No row refers to a leaf that is not there. -/
theorem Table.Tidy.unused (h : t.Tidy) (hfree : t.leaf r = none) : t.row i ≠ some r := by
  intro hrow
  obtain ⟨leaf, hleaf, -⟩ := h.live i r hrow
  rw [hfree] at hleaf
  cases hleaf

theorem Table.tidy_empty : (⟨fun _ => none, fun _ => none⟩ : Table ι ρ κ α).Tidy where
  injective := nofun
  live := nofun
  owned := nofun

variable [DecidableEq ρ]

/-- Replaces the contents of a leaf. -/
def Table.put (t : Table ι ρ κ α) (r : ρ) (leaf : κ → Option α) : Table ι ρ κ α :=
  { t with leaf := Function.update t.leaf r (some leaf) }

/-! ## Keeping the table tidy -/

theorem Table.Tidy.put (h : t.Tidy) (hrow : t.row i = some r) (hleaf : ∃ k, leaf k ≠ none) :
    (t.put r leaf).Tidy where
  injective := h.injective
  live := by
    intro j s hs
    by_cases hrs : s = r
    · subst hrs
      exact ⟨leaf, Function.update_self .., hleaf⟩
    · obtain ⟨other, hother, hk⟩ := h.live j s hs
      exact ⟨other, (Function.update_of_ne hrs ..).trans hother, hk⟩
  owned := by
    intro s other hs
    by_cases hrs : s = r
    · subst hrs
      exact ⟨i, hrow⟩
    · exact h.owned s other ((Function.update_of_ne hrs ..).symm.trans hs)

variable [DecidableEq ι]

/-- Gives a row a leaf. -/
def Table.add (t : Table ι ρ κ α) (i : ι) (r : ρ) (leaf : κ → Option α) : Table ι ρ κ α :=
  ⟨Function.update t.row i (some r), Function.update t.leaf r (some leaf)⟩

/-- Frees the leaf of a row. -/
def Table.drop (t : Table ι ρ κ α) (i : ι) (r : ρ) : Table ι ρ κ α :=
  ⟨Function.update t.row i none, Function.update t.leaf r none⟩

theorem Table.Tidy.add (h : t.Tidy) (hrow : t.row i = none) (hfree : t.leaf r = none)
    (hleaf : ∃ k, leaf k ≠ none) : (t.add i r leaf).Tidy := by
  have hother : ∀ j s, t.row j = some s → s ≠ r := by
    rintro j s hs rfl
    exact h.unused hfree hs
  constructor
  · intro j₁ j₂ s h₁ h₂
    simp only [Table.add, Function.update_apply] at h₁ h₂
    split_ifs at h₁ h₂ with he₁ he₂ he₂
    · exact he₁.trans he₂.symm
    · exact absurd (Option.some.inj h₁).symm (hother j₂ s h₂)
    · exact absurd (Option.some.inj h₂).symm (hother j₁ s h₁)
    · exact h.injective j₁ j₂ s h₁ h₂
  · intro j s hs
    simp only [Table.add, Function.update_apply] at hs ⊢
    split_ifs at hs with hj
    · exact ⟨leaf, if_pos (Option.some.inj hs).symm, hleaf⟩
    · rw [if_neg (hother j s hs)]
      exact h.live j s hs
  · intro s other hs
    simp only [Table.add, Function.update_apply] at hs ⊢
    split_ifs at hs with hrs
    · exact ⟨i, by rw [if_pos rfl, hrs]⟩
    · obtain ⟨j, hj⟩ := h.owned s other hs
      have hji : j ≠ i := by
        rintro rfl
        rw [hrow] at hj
        cases hj
      exact ⟨j, by rw [if_neg hji, hj]⟩

theorem Table.Tidy.drop (h : t.Tidy) (hrow : t.row i = some r) : (t.drop i r).Tidy := by
  have hother : ∀ j s, j ≠ i → t.row j = some s → s ≠ r := by
    rintro j s hji hs rfl
    exact hji (h.injective j i s hs hrow)
  constructor
  · intro j₁ j₂ s h₁ h₂
    simp only [Table.drop, Function.update_apply] at h₁ h₂
    split_ifs at h₁ h₂
    exact h.injective j₁ j₂ s h₁ h₂
  · intro j s hs
    simp only [Table.drop, Function.update_apply] at hs ⊢
    split_ifs at hs with hj
    rw [if_neg (hother j s hj hs)]
    exact h.live j s hs
  · intro s other hs
    simp only [Table.drop, Function.update_apply] at hs ⊢
    split_ifs at hs with hrs
    obtain ⟨j, hj⟩ := h.owned s other hs
    have hji : j ≠ i := by
      rintro rfl
      exact hrs (Option.some.inj (hj.symm.trans hrow))
    exact ⟨j, by rw [if_neg hji, hj]⟩

/-! ## The operations of the map -/

/-- Only the row of the leaf changes. -/
theorem Table.Tidy.lookup_put (h : t.Tidy) (hrow : t.row i = some r) :
    (t.put r leaf).lookup j l = if j = i then leaf l else t.lookup j l := by
  by_cases hji : j = i
  · subst hji
    rw [if_pos rfl]
    exact lookup_of_leaf hrow (Function.update_self ..)
  · rw [if_neg hji]
    refine lookup_congr rfl fun s hs => Function.update_of_ne ?_ ..
    rintro rfl
    exact hji (h.injective j i s hs hrow)

theorem Table.Tidy.lookup_add (h : t.Tidy) (hfree : t.leaf r = none) :
    (t.add i r leaf).lookup j l = if j = i then leaf l else t.lookup j l := by
  by_cases hji : j = i
  · subst hji
    rw [if_pos rfl]
    exact lookup_of_leaf (Function.update_self ..) (Function.update_self ..)
  · rw [if_neg hji]
    refine lookup_congr (Function.update_of_ne hji ..) fun s hs => Function.update_of_ne ?_ ..
    rintro rfl
    exact h.unused hfree hs

theorem Table.Tidy.lookup_drop (h : t.Tidy) (hrow : t.row i = some r) :
    (t.drop i r).lookup j l = if j = i then none else t.lookup j l := by
  by_cases hji : j = i
  · subst hji
    rw [if_pos rfl]
    exact lookup_of_none (Function.update_self ..)
  · rw [if_neg hji]
    refine lookup_congr (Function.update_of_ne hji ..) fun s hs => Function.update_of_ne ?_ ..
    rintro rfl
    exact hji (h.injective j i s hs hrow)

end Sparse
