import Mathlib.Data.List.Chain
import Wagtail.Library.FirstFit

/-!
# Coalesced regions

A region is coalesced when no two neighbouring cells are unused. Placing and
releasing keep it so, and a coalesced tiling is determined by its used cells.
-/
namespace FirstFit

variable {h size align lo hi p : Nat} {c : Cell} {l l' l₁ l₂ cs : List Cell}

/-- Of two neighbours one is used. -/
def Coalesced (l : List Cell) : Prop := l.IsChain fun c d => c.used = true ∨ d.used = true

@[simp] theorem coalesced_nil : Coalesced [] := .nil
@[simp] theorem coalesced_singleton (c : Cell) : Coalesced [c] := .singleton c
@[simp] theorem coalesced_cons_cons {d : Cell} :
    Coalesced (c :: d :: l) ↔ (c.used = true ∨ d.used = true) ∧ Coalesced (d :: l) :=
  List.isChain_cons_cons

theorem Coalesced.tail (hl : Coalesced (c :: l)) : Coalesced l := List.IsChain.tail hl

/-- An unused cell has used neighbours. -/
theorem Coalesced.neighbours (hl : Coalesced (l₁ ++ c :: l₂)) (hc : c.used = false) :
    (∀ b ∈ l₁.getLast?, b.used = true) ∧ ∀ d ∈ l₂.head?, d.used = true := by
  obtain ⟨-, hright, hjoin⟩ := List.isChain_append.mp hl
  constructor
  · intro b hb
    have hor := hjoin b hb c rfl
    simpa [hc] using hor
  · intro d hd
    have hor := (List.isChain_cons.mp hright).1 d hd
    simpa [hc] using hor

/-- In place of an unused cell, any coalesced cells fit. -/
theorem Coalesced.replace (hl : Coalesced (l₁ ++ c :: l₂)) (hc : c.used = false)
    (hcs : Coalesced cs) : Coalesced (l₁ ++ (cs ++ l₂)) := by
  obtain ⟨hlast, hhead⟩ := hl.neighbours hc
  obtain ⟨hleft, hright, -⟩ := List.isChain_append.mp hl
  apply List.IsChain.append hleft
  · apply List.IsChain.append hcs hright.tail
    intro b _ d hd
    exact Or.inr (hhead d hd)
  · intro b hb d _
    exact Or.inl (hlast b hb)

/-! ## Placing -/

theorem carve_coalesced : Coalesced (carve h size c) := by
  unfold carve
  split <;> simp

theorem place_coalesced (hp : place h size align c = some (p, cs)) :
    c.used = false ∧ Coalesced cs := by
  unfold place at hp
  split_ifs at hp with hfit hzero hbehind
  · obtain ⟨rfl, rfl⟩ := by simpa using hp
    exact ⟨hfit.1, carve_coalesced⟩
  · obtain ⟨rfl, rfl⟩ := by simpa using hp
    refine ⟨hfit.1, List.isChain_cons.mpr ⟨?_, carve_coalesced⟩⟩
    intro d hd
    right
    unfold carve at hd
    split at hd <;>
    · simp only [List.head?_cons, Option.mem_def, Option.some_inj] at hd
      rw [← hd]

theorem firstFit_coalesced (hl : Coalesced l) (hf : firstFit h size align l = some (p, cs)) :
    Coalesced cs := by
  obtain ⟨l₁, c, ds, l₂, rfl, rfl, hplace⟩ := firstFit_split hf
  obtain ⟨hc, hds⟩ := place_coalesced hplace
  exact hl.replace hc hds

/-! ## Releasing -/

theorem absorb_coalesced (hl : Coalesced l) : Coalesced (absorb h c l) := by
  cases l with
  | nil => simp [absorb]
  | cons d l =>
    cases hd : d.used with
    | true => simpa [absorb, hd] using hl
    | false =>
      simp only [absorb, hd, Bool.false_eq_true, if_false]
      refine List.isChain_cons.mpr ⟨fun e he => ?_, hl.tail⟩
      have hor := (List.isChain_cons.mp hl).1 e he
      simp only [hd, Bool.false_eq_true, false_or] at hor
      exact Or.inr hor

theorem release_coalesced (hl : Coalesced (l₁ ++ c :: l₂)) : Coalesced (release h l₁ c l₂) := by
  have hright : Coalesced l₂ := (List.isChain_append.mp hl).2.1.tail
  induction l₁ using release_cases with
  | nil =>
    rw [release_nil]
    exact absorb_coalesced hright
  | used l b hb =>
    rw [release_concat_used hb]
    have hleft : Coalesced (l ++ [b]) := (List.isChain_append.mp hl).1
    have hlist := List.IsChain.append hleft (absorb_coalesced (h := h) (c := ⟨c.addr, c.size, false⟩)
      hright) fun x hx y _ => Or.inl (by
        obtain rfl : b = x := by simpa using hx
        exact hb)
    rwa [List.append_assoc, List.singleton_append] at hlist
  | unused l b hb =>
    rw [release_concat_unused hb]
    have hassoc : l ++ [b] ++ c :: l₂ = l ++ b :: c :: l₂ := by simp
    rw [hassoc] at hl
    obtain ⟨hlast, -⟩ := hl.neighbours hb
    exact List.IsChain.append (List.isChain_append.mp hl).1 (absorb_coalesced hright)
      fun x hx y _ => Or.inl (hlast x hx)

/-- Releasing an unused cell of a coalesced region changes nothing. -/
theorem release_unused (hl : Coalesced (l₁ ++ c :: l₂)) (hc : c.used = false) :
    release h l₁ c l₂ = l₁ ++ c :: l₂ := by
  obtain ⟨hlast, hhead⟩ := hl.neighbours hc
  have hself : (⟨c.addr, c.size, false⟩ : Cell) = c := by rw [← hc]
  have habsorb : absorb h c l₂ = c :: l₂ := by
    cases l₂ with
    | nil => rfl
    | cons d l₂ => simp [absorb, hhead d rfl]
  induction l₁ using release_cases with
  | nil => rw [release_nil, hself, habsorb, List.nil_append]
  | used l b hb => rw [release_concat_used hb, hself, habsorb, List.append_assoc]; rfl
  | unused l b hb =>
    have hused := hlast b (by simp)
    rw [hb] at hused
    cases hused

/-! ## The used cells determine the region -/

/-- The first cells of two coalesced tilings of one region, with the same used cells, end at
the same place. -/
theorem Coalesced.fin_le {d : Cell} (hl : Coalesced (c :: l)) (ht : Tiles h lo (c :: l) hi)
    (ht' : Tiles h lo (d :: l') hi) (hc : c.used = false) (hd : d.used = false)
    (hused : ∀ e : Cell, e.used = true → e ∈ c :: l → e ∈ d :: l') : d.fin h ≤ c.fin h := by
  cases l with
  | nil =>
    have hend : c.fin h = hi := ht.2
    rw [hend]
    exact (ht'.bounds (List.mem_cons_self ..)).2
  | cons e l =>
    have he : e.used = true := by simpa [hc] using (coalesced_cons_cons.mp hl).1
    have hstart : e.addr = c.fin h := ht.2.1
    have hmem := hused e he (by simp)
    cases List.mem_cons.mp hmem with
    | inl heq =>
      rw [heq, hd] at he
      cases he
    | inr htail =>
      rw [← hstart]
      exact (ht'.2.bounds htail).1

/-- Two coalesced tilings of one region with the same used cells are the same. -/
theorem Coalesced.ext (hl : Coalesced l) (hl' : Coalesced l') (ht : Tiles h lo l hi)
    (ht' : Tiles h lo l' hi) (hh : 0 < h)
    (hused : ∀ e : Cell, e.used = true → (e ∈ l ↔ e ∈ l')) : l = l' := by
  induction l generalizing lo l' with
  | nil =>
    cases l' with
    | nil => rfl
    | cons d l' =>
      obtain rfl : lo = hi := ht
      have := (ht'.bounds (List.mem_cons_self ..)).2
      have := ht'.1
      simp only [Cell.fin] at *
      omega
  | cons c l ih =>
    cases l' with
    | nil =>
      obtain rfl : lo = hi := ht'
      have := (ht.bounds (List.mem_cons_self ..)).2
      have := ht.1
      simp only [Cell.fin] at *
      omega
    | cons d l' =>
      have haddr : c.addr = d.addr := ht.1.trans ht'.1.symm
      -- a used cell at the front is the front of both, since the others lie behind
      have hfront : c = d := by
        cases hc : c.used with
        | true =>
          cases List.mem_cons.mp ((hused c hc).mp (List.mem_cons_self ..)) with
          | inl heq => exact heq
          | inr htail =>
            have := (ht'.2.bounds htail).1
            simp only [Cell.fin] at *
            omega
        | false =>
          cases hd : d.used with
          | true =>
            cases List.mem_cons.mp ((hused d hd).mpr (List.mem_cons_self ..)) with
            | inl heq => exact heq.symm
            | inr htail =>
              have := (ht.2.bounds htail).1
              simp only [Cell.fin] at *
              omega
          | false =>
            have hle := hl.fin_le ht ht' hc hd fun e he => (hused e he).mp
            have hge := hl'.fin_le ht' ht hd hc fun e he => (hused e he).mpr
            cases c
            cases d
            simp only [Cell.fin, Cell.mk.injEq] at *
            refine ⟨haddr, by omega, hc.trans hd.symm⟩
      subst hfront
      have hbehind : ∀ e ∈ l, e ≠ c := by
        rintro e he rfl
        have := (ht.2.bounds he).1
        simp only [Cell.fin] at *
        omega
      have hbehind' : ∀ e ∈ l', e ≠ c := by
        rintro e he rfl
        have := (ht'.2.bounds he).1
        simp only [Cell.fin] at *
        omega
      rw [ih hl.tail hl'.tail ht.2 ht'.2]
      intro e he
      have hboth := hused e he
      simp only [List.mem_cons] at hboth
      constructor
      · intro hmem
        exact (hboth.mp (Or.inr hmem)).resolve_left (hbehind e hmem)
      · intro hmem
        exact (hboth.mpr (Or.inr hmem)).resolve_left (hbehind' e hmem)

end FirstFit
