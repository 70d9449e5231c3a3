import Mathlib.Data.List.Perm.Subperm
import Mathlib.Logic.Function.Basic

/-!
# A pool of resources and their holders

Each resource is free or held in at most one place. Taking one and giving it
back keep that, and nothing is lost as long as no place is overwritten.
-/
namespace Pool

variable {κ α : Type} {all free : List α} {held : κ → Option α} {k l : κ} {a : α}

/-- Nothing is free twice, free and held, or held twice. -/
structure Exclusive (free : List α) (held : κ → Option α) : Prop where
  nodup : free.Nodup
  apart : ∀ a ∈ free, ∀ k, held k ≠ some a
  unique : ∀ k l a, held k = some a → held l = some a → k = l

/-- Every resource is free or held, and there are no others. -/
structure Conserved (all free : List α) (held : κ → Option α) : Prop extends
    Exclusive free held where
  covered : ∀ a, a ∈ all ↔ a ∈ free ∨ ∃ k, held k = some a

/-- There is room for what is free. -/
theorem Conserved.length_le (h : Conserved all free held) : free.length ≤ all.length :=
  (h.nodup.subperm fun a ha => (h.covered a).mpr (.inl ha)).length_le

theorem Conserved.start (hall : all.Nodup) : Conserved all all fun _ : κ => none where
  nodup := hall
  apart := nofun
  unique := nofun
  covered := by simp

variable [DecidableEq κ]

/-- What a place holds may be dropped. -/
theorem Exclusive.drop (h : Exclusive free held) (k : κ) :
    Exclusive free (Function.update held k none) where
  nodup := h.nodup
  apart := by
    intro a ha l hl
    rw [Function.update_apply] at hl
    split_ifs at hl
    exact h.apart a ha l hl
  unique := by
    intro i j a hi hj
    rw [Function.update_apply] at hi hj
    split_ifs at hi hj
    exact h.unique i j a hi hj

theorem Exclusive.take (h : Exclusive (a :: free) held) (k : κ) :
    Exclusive free (Function.update held k (some a)) := by
  obtain ⟨hfree, hnodup⟩ := List.nodup_cons.mp h.nodup
  constructor
  · exact hnodup
  · intro b hb l hl
    rw [Function.update_apply] at hl
    split_ifs at hl with hlk
    · exact hfree (Option.some.inj hl ▸ hb)
    · exact h.apart b (List.mem_cons_of_mem _ hb) l hl
  · intro i j b hi hj
    rw [Function.update_apply] at hi hj
    split_ifs at hi hj with hik hjk hjk
    · exact hik.trans hjk.symm
    · exact absurd (Option.some.inj hi ▸ hj) (h.apart a List.mem_cons_self j)
    · exact absurd (Option.some.inj hj ▸ hi) (h.apart a List.mem_cons_self i)
    · exact h.unique i j b hi hj

theorem Exclusive.give (h : Exclusive free held) (hk : held k = some a) :
    Exclusive (a :: free) (Function.update held k none) where
  nodup := List.nodup_cons.mpr ⟨fun ha => h.apart a ha k hk, h.nodup⟩
  apart := by
    intro b hb l hl
    rw [Function.update_apply] at hl
    split_ifs at hl with hlk
    cases List.mem_cons.mp hb with
    | inl hba => exact hlk (h.unique l k a (hba ▸ hl) hk)
    | inr hb => exact h.apart b hb l hl
  unique := (h.drop k).unique

theorem Conserved.take (h : Conserved all (a :: free) held) (hk : held k = none) :
    Conserved all free (Function.update held k (some a)) where
  toExclusive := h.toExclusive.take k
  covered := by
    intro b
    rw [h.covered b, List.mem_cons]
    constructor
    · rintro ((rfl | hb) | ⟨l, hl⟩)
      · exact .inr ⟨k, Function.update_self ..⟩
      · exact .inl hb
      · have hlk : l ≠ k := by
          rintro rfl
          rw [hk] at hl
          cases hl
        exact .inr ⟨l, (Function.update_of_ne hlk ..).trans hl⟩
    · rintro (hb | ⟨l, hl⟩)
      · exact .inl (.inr hb)
      · rw [Function.update_apply] at hl
        split_ifs at hl with hlk
        · exact .inl (.inl (Option.some.inj hl).symm)
        · exact .inr ⟨l, hl⟩

theorem Conserved.give (h : Conserved all free held) (hk : held k = some a) :
    Conserved all (a :: free) (Function.update held k none) where
  toExclusive := h.toExclusive.give hk
  covered := by
    intro b
    rw [h.covered b, List.mem_cons]
    constructor
    · rintro (hb | ⟨l, hl⟩)
      · exact .inl (.inr hb)
      · by_cases hlk : l = k
        · subst hlk
          exact .inl (.inl (Option.some.inj (hl.symm.trans hk)))
        · exact .inr ⟨l, (Function.update_of_ne hlk ..).trans hl⟩
    · rintro ((rfl | hb) | ⟨l, hl⟩)
      · exact .inr ⟨k, hk⟩
      · exact .inl hb
      · rw [Function.update_apply] at hl
        split_ifs at hl
        exact .inr ⟨l, hl⟩

end Pool
