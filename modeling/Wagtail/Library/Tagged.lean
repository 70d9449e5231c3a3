import Mathlib.Logic.Function.Basic

/-!
# Tagged caches

A cache in front of a partial map. An entry is global or has a tag, and one with
another tag than the current one is not found. The cache is coherent if only
what the map holds is found.
-/
namespace Tagged

/-- A key with its value. A global entry has no tag. -/
structure Entry (κ α τ : Type) where
  key : κ
  value : α
  tag : Option τ
  deriving DecidableEq, Repr

section

variable {κ α τ : Type} {cache : List (Entry κ α τ)} {e : Entry κ α τ} {current : τ}
  {f : κ → Option α}

def Entry.Hits (e : Entry κ α τ) (current : τ) : Prop := e.tag = none ∨ e.tag = some current

instance [DecidableEq τ] : Decidable (e.Hits current) :=
  inferInstanceAs (Decidable (_ ∨ _))

def Coherent (cache : List (Entry κ α τ)) (current : τ) (f : κ → Option α) : Prop :=
  ∀ e ∈ cache, e.Hits current → f e.key = some e.value

instance [DecidableEq τ] [DecidableEq α] : Decidable (Coherent cache current f) :=
  inferInstanceAs (Decidable (∀ _ ∈ _, _))

@[simp] theorem coherent_nil : Coherent ([] : List (Entry κ α τ)) current f := nofun

/-- An entry that has been taken from the map may be added. -/
theorem Coherent.fill (h : Coherent cache current f) (he : f e.key = some e.value) :
    Coherent (e :: cache) current f := by
  intro e' he' hhits
  cases List.mem_cons.mp he' with
  | inl heq => exact heq ▸ he
  | inr hmem => exact h e' hmem hhits

/-- Changing the map at one key leaves a coherent cache coherent exactly if the entries for the key
have the new value. -/
theorem Coherent.update_iff [DecidableEq κ] (h : Coherent cache current f) (k : κ)
    (value : Option α) : Coherent cache current (Function.update f k value) ↔
      ∀ e ∈ cache, e.Hits current → e.key = k → value = some e.value := by
  constructor
  · intro hafter e he hhits hkey
    have hvalue := hafter e he hhits
    rwa [hkey, Function.update_self] at hvalue
  · intro hentries e he hhits
    by_cases hkey : e.key = k
    · rw [hkey, Function.update_self]
      exact hentries e he hhits hkey
    · rw [Function.update_of_ne hkey]
      exact h e he hhits

end

end Tagged
