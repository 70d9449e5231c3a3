import Mathlib.Data.List.Induction
import Mathlib.Data.List.Nodup
import Mathlib.Logic.Function.Iterate

/-!
# Labelled runs and inductive invariants

A step relation labelled with events, its finite runs, and the three rules the
systems of this development use: an inductive invariant, an invariant that
also sees the events so far, and a forward simulation into another system.
Behind them stands a fact about runs of a single function.
-/
namespace Runs

variable {σ τ ε : Type}

/-- Finite runs, with the events in the order in which they happened. -/
inductive Run (step : σ → ε → σ → Prop) (s : σ) : List ε → σ → Prop where
  | nil : Run step s [] s
  | snoc {es : List ε} {t u : σ} {e : ε} :
      Run step s es t → step t e u → Run step s (es ++ [e]) u

/-- The steps that also meet a condition on the state before them. -/
def Guarded (good : σ → ε → Prop) (step : σ → ε → σ → Prop) : σ → ε → σ → Prop :=
  fun s e t => good s e ∧ step s e t

/-- What holds at the start and survives every step holds at the end of every run;
the property may speak about the events so far. -/
theorem Run.history {step : σ → ε → σ → Prop} {P : List ε → σ → Prop} {s t : σ}
    {es : List ε} (h : Run step s es t) (start : P [] s)
    (keep : ∀ es t e u, P es t → step t e u → P (es ++ [e]) u) : P es t := by
  induction h with
  | nil => exact start
  | snoc _ hstep ih => exact keep _ _ _ _ ih hstep

/-- An inductive invariant holds in every state a run reaches. -/
theorem Run.invariant {step : σ → ε → σ → Prop} {I : σ → Prop} {s t : σ} {es : List ε}
    (h : Run step s es t) (start : I s) (keep : ∀ t e u, I t → step t e u → I u) : I t :=
  h.history (P := fun _ t => I t) start (fun _ t e u => keep t e u)

/-- A run of guarded steps is a run. -/
theorem Run.unguard {good : σ → ε → Prop} {step : σ → ε → σ → Prop} {s t : σ}
    {es : List ε} (h : Run (Guarded good step) s es t) : Run step s es t := by
  induction h with
  | nil => exact .nil
  | snoc _ hstep ih => exact ih.snoc hstep.2

theorem Run.mono {step step' : σ → ε → σ → Prop} (hstep : ∀ s e t, step s e t → step' s e t)
    {s t : σ} {es : List ε} (h : Run step s es t) : Run step' s es t := by
  induction h with
  | nil => exact .nil
  | snoc _ hlast ih => exact ih.snoc (hstep _ _ _ hlast)

/-- The last round of a loop that can fail. -/
theorem foldlM_snoc {m : Type → Type} [Monad m] [LawfulMonad m] (f : σ → ε → m σ) (s : σ)
    (l : List ε) (e : ε) : (l ++ [e]).foldlM f s = l.foldlM f s >>= fun t => f t e := by
  simp only [List.foldlM_append, List.foldlM_cons, List.foldlM_nil, bind_pure]

/-- A function that only takes steps of the system computes runs of it. -/
theorem Run.of_foldlM {step : σ → ε → σ → Prop} {f : σ → ε → Option σ}
    (hf : ∀ s e t, f s e = some t → step s e t) {s t : σ} {es : List ε}
    (h : es.foldlM f s = some t) : Run step s es t := by
  induction es using List.reverseRecOn generalizing t with
  | nil =>
    obtain rfl : s = t := by simpa using h
    exact .nil
  | append_singleton es e ih =>
    rw [foldlM_snoc, Option.bind_eq_bind, Option.bind_eq_some_iff] at h
    obtain ⟨u, hu, he⟩ := h
    exact (ih hu).snoc (hf _ _ _ he)

theorem bind_of_ok {φ : Type} {x : Except φ σ} {a : σ} (h : x = .ok a) (f : σ → Except φ τ) :
    x >>= f = f a := by
  rw [h]
  rfl

theorem ok_of_bind {φ : Type} {x : Except φ σ} {f : σ → Except φ τ} {b : τ}
    (h : x >>= f = .ok b) : ∃ a, x = .ok a ∧ f a = .ok b := by
  cases x with
  | error e => cases h
  | ok a => exact ⟨a, rfl, h⟩

theorem exists_of_isOk {φ : Type} {x : Except φ σ} (h : x.isOk = true) : ∃ a, x = .ok a := by
  cases x with
  | error e => cases h
  | ok a => exact ⟨a, rfl⟩

/-- A loop that can fail: what holds before it and survives every round holds at its end, unless
a round fails in a way that is accounted for. -/
theorem foldlM_except {φ : Type} {f : σ → ε → Except φ σ} {I : List ε → σ → Prop}
    {E : φ → Prop} {s : σ} {l : List ε} (start : I [] s)
    (round : ∀ done e t, (∃ rest, l = done ++ e :: rest) → I done t →
      (∃ u, f t e = .ok u ∧ I (done ++ [e]) u) ∨ ∃ x, f t e = .error x ∧ E x) :
    (∃ t, l.foldlM f s = .ok t ∧ I l t) ∨ ∃ x, l.foldlM f s = .error x ∧ E x := by
  induction l using List.reverseRecOn with
  | nil => exact .inl ⟨s, rfl, start⟩
  | append_singleton l e ih =>
    rw [foldlM_snoc]
    have hbefore := ih fun done e' t hsplit => round done e' t (by
      obtain ⟨rest, rfl⟩ := hsplit
      exact ⟨rest ++ [e], by simp⟩)
    obtain ⟨t, ht, hI⟩ | ⟨x, hx, hE⟩ := hbefore
    · rw [ht]
      exact round l e t ⟨[], rfl⟩ hI
    · rw [hx]
      exact .inr ⟨x, rfl, hE⟩

/-- A forward simulation carries every run over, event by event. -/
theorem Run.simulate {step : σ → ε → σ → Prop} {step' : τ → ε → τ → Prop}
    {R : σ → τ → Prop} {s t : σ} {s' : τ} {es : List ε} (h : Run step s es t)
    (start : R s s')
    (match_step : ∀ t e u t', R t t' → step t e u → ∃ u', step' t' e u' ∧ R u u') :
    ∃ t', Run step' s' es t' ∧ R t t' := by
  induction h with
  | nil => exact ⟨s', .nil, start⟩
  | snoc _ hstep ih =>
    obtain ⟨t', hrun, hR⟩ := ih
    obtain ⟨u', hstep', hR'⟩ := match_step _ _ _ _ hR hstep
    exact ⟨u', hrun.snoc hstep', hR'⟩

/-! ## Iterates -/

/-- Up to the first point with a property, iterates do not repeat. -/
theorem nodup_iterates {f : σ → σ} {a : σ} {P : σ → Prop} {n : Nat} (hn : P (f^[n] a))
    (hfirst : ∀ m < n, ¬P (f^[m] a)) : ((List.range (n + 1)).map fun m => f^[m] a).Nodup := by
  have hapart : ∀ i j, i < j → j ≤ n → f^[i] a ≠ f^[j] a := by
    intro i j hij hj heq
    have hearlier : f^[n - j + i] a = f^[n] a := by
      rw [Function.iterate_add_apply, heq, ← Function.iterate_add_apply, Nat.sub_add_cancel hj]
    exact hfirst (n - j + i) (by omega) (hearlier ▸ hn)
  refine List.Nodup.map_on ?_ List.nodup_range
  intro i hi j hj heq
  have hi := List.mem_range.mp hi
  have hj := List.mem_range.mp hj
  rcases Nat.lt_trichotomy i j with hlt | rfl | hlt
  · exact absurd heq (hapart i j hlt (by omega))
  · rfl
  · exact absurd heq.symm (hapart j i hlt (by omega))

end Runs
