import Mathlib.Data.List.Basic

/-!
# Computations with a trace of effects

A computation leaves the list of its effects behind, in order, and has a value
unless it gets stuck: a fault, or a loop that has run out of fuel. The effects up
to that point are kept.
-/

structure Traced (ε α : Type) where
  effects : List ε
  value : Option α

namespace Traced

variable {ε α β : Type}

def emit (e : ε) : Traced ε Unit := ⟨[e], some ()⟩

def stuck : Traced ε α := ⟨[], none⟩

def ofOption (a : Option α) : Traced ε α := ⟨[], a⟩

instance : Monad (Traced ε) where
  pure a := ⟨[], some a⟩
  bind m f :=
    match m.value with
    | none => ⟨m.effects, none⟩
    | some a => ⟨m.effects ++ (f a).effects, (f a).value⟩

@[simp] theorem value_pure (a : α) : (pure a : Traced ε α).value = some a := rfl

@[simp] theorem effects_pure (a : α) : (pure a : Traced ε α).effects = [] := rfl

@[simp] theorem value_emit (e : ε) : (emit e).value = some () := rfl

@[simp] theorem value_stuck : (stuck : Traced ε α).value = none := rfl

@[simp] theorem value_ofOption (a : Option α) : (ofOption a : Traced ε α).value = a := rfl

@[simp] theorem value_bind (m : Traced ε α) (f : α → Traced ε β) :
    (m >>= f).value = m.value.bind fun a => (f a).value := by
  change (match m.value with
    | none => (⟨m.effects, none⟩ : Traced ε β)
    | some a => ⟨m.effects ++ (f a).effects, (f a).value⟩).value = _
  cases m.value <;> rfl

/-- The effects of a sequence are those of the first part, and those of the second at the
value that the first one returns. -/
theorem effects_bind (m : Traced ε α) (f : α → Traced ε β) :
    (m >>= f).effects = m.effects ++ (m.value.elim [] fun a => (f a).effects) := by
  change (match m.value with
    | none => (⟨m.effects, none⟩ : Traced ε β)
    | some a => ⟨m.effects ++ (f a).effects, (f a).value⟩).effects = _
  cases m.value with
  | none => exact (List.append_nil _).symm
  | some a => rfl

theorem bind_of_value {m : Traced ε α} {a : α} (h : m.value = some a) (f : α → Traced ε β) :
    m >>= f = ⟨m.effects ++ (f a).effects, (f a).value⟩ := by
  change (match m.value with
    | none => (⟨m.effects, none⟩ : Traced ε β)
    | some a => ⟨m.effects ++ (f a).effects, (f a).value⟩) = _
  rw [h]

theorem ofOption_some_bind (a : α) (f : α → Traced ε β) : ofOption (some a) >>= f = f a := rfl

/-- Every effect of the computation satisfies the property. -/
def All (P : ε → Prop) (m : Traced ε α) : Prop := ∀ e ∈ m.effects, P e

@[simp] theorem all_pure (P : ε → Prop) (a : α) : All P (pure a : Traced ε α) := by
  simp [All]

@[simp] theorem all_stuck (P : ε → Prop) : All P (stuck : Traced ε α) := by
  simp [All, stuck]

@[simp] theorem all_ofOption (P : ε → Prop) (a : Option α) :
    All P (ofOption a : Traced ε α) := by
  simp [All, ofOption]

@[simp] theorem all_emit {P : ε → Prop} {e : ε} : All P (emit e) ↔ P e := by
  simp [All, emit]

theorem all_bind {P : ε → Prop} {m : Traced ε α} {f : α → Traced ε β} :
    All P (m >>= f) ↔ All P m ∧ ∀ a, m.value = some a → All P (f a) := by
  change All P (match m.value with
    | none => (⟨m.effects, none⟩ : Traced ε β)
    | some a => ⟨m.effects ++ (f a).effects, (f a).value⟩) ↔ _
  cases m.value with
  | none => simp [All]
  | some a => simp [All, or_imp, forall_and]

end Traced
