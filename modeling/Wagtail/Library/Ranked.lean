import Mathlib.Data.List.Perm.Basic

/-!
# Lists in order of falling rank

A list kept with the highest ranks first answers "the highest-ranked entry with
a property" by its first match. Insertion goes in front of the first entry of
lower rank, and in front of the last entry when there is none: the last entry
is a default that nothing is placed behind.
-/
namespace Ranked

variable {α : Type} {rank : α → Nat} {p : α → Bool} {x y : α} {l : List α}

/-- No entry ranks higher than an entry in front of it. -/
def Descending (rank : α → Nat) (l : List α) : Prop := l.Pairwise fun x y => rank y ≤ rank x

def insert (rank : α → Nat) (x : α) : List α → List α
  | [] => [x]
  | [y] => [x, y]
  | y :: z :: l => if rank y < rank x then x :: y :: z :: l else y :: insert rank x (z :: l)

theorem insert_perm : (insert rank x l).Perm (x :: l) := by
  fun_induction insert rank x l with
  | case1 => exact .refl _
  | case2 => exact .refl _
  | case3 => exact .refl _
  | case4 y z l _ ih => exact (ih.cons y).trans (.swap x y _)

/-- The entry goes in front of some other entry. -/
theorem insert_split (rank : α → Nat) (x : α) (hl : l ≠ []) :
    ∃ l₁ y l₂, l = l₁ ++ y :: l₂ ∧ insert rank x l = l₁ ++ x :: y :: l₂ := by
  fun_induction insert rank x l with
  | case1 => exact absurd rfl hl
  | case2 y => exact ⟨[], y, [], rfl, rfl⟩
  | case3 y z l => exact ⟨[], y, z :: l, rfl, rfl⟩
  | case4 y z l _ ih =>
    obtain ⟨l₁, w, l₂, hsplit, hinsert⟩ := ih (by simp)
    exact ⟨y :: l₁, w, l₂, by rw [hsplit]; rfl, by rw [hinsert]; rfl⟩

theorem insert_getLast? (hl : l ≠ []) : (insert rank x l).getLast? = l.getLast? := by
  obtain ⟨l₁, y, l₂, rfl, hinsert⟩ := insert_split rank x hl
  rw [hinsert]
  simp [List.getLast?_append, List.getLast?_cons]

theorem descending_insert (hd : Descending rank l)
    (hlast : ∀ y, l.getLast? = some y → rank y ≤ rank x) : Descending rank (insert rank x l) := by
  fun_induction insert rank x l with
  | case1 => exact List.pairwise_singleton _ _
  | case2 y => simpa [Descending] using hlast y rfl
  | case3 y z l hlt =>
    refine List.pairwise_cons.mpr ⟨?_, hd⟩
    intro w hw
    rcases List.mem_cons.mp hw with rfl | hw
    · exact Nat.le_of_lt hlt
    · exact Nat.le_trans ((List.pairwise_cons.mp hd).1 w hw) (Nat.le_of_lt hlt)
  | case4 y z l hlt ih =>
    obtain ⟨hy, hd'⟩ := List.pairwise_cons.mp hd
    refine List.pairwise_cons.mpr ⟨?_, ih hd' (by simpa using hlast)⟩
    intro w hw
    rcases List.mem_cons.mp (insert_perm.mem_iff.mp hw) with rfl | hw
    · exact Nat.le_of_not_lt hlt
    · exact hy w hw

/-- The first match ranks highest among all matches. -/
theorem Descending.find?_max (hd : Descending rank l) (hx : l.find? p = some x) (hy : y ∈ l)
    (hp : p y = true) : rank y ≤ rank x := by
  obtain ⟨-, l₁, l₂, rfl, hbefore⟩ := List.find?_eq_some_iff_append.mp hx
  rcases List.mem_append.mp hy with hy | hy
  · exact absurd hp (by simpa using hbefore y hy)
  · rcases List.mem_cons.mp hy with rfl | hy
    · exact Nat.le_refl _
    · exact (List.pairwise_cons.mp (List.pairwise_append.mp hd).2.1).1 y hy

end Ranked
