import Mathlib.Algebra.Group.Nat.Defs
import Mathlib.Data.List.Basic

/-!
# Words in byte-addressed memory

Little-endian 32-bit words, the memory after a list of word stores, and the two
rules for reading it: a run of consecutive words is found where it was stored,
and a byte that no store covers is unchanged.
-/
namespace Memory

/-- The byte of a word at this place, the lowest first. -/
def byte (word i : Nat) : Nat := word / 256 ^ i % 256

/-- A word with its address. -/
structure Store where
  address : Nat
  value : Nat

/-- The byte at this address is one of the four of the store. -/
def Store.Covers (x : Store) (a : Nat) : Prop := x.address ≤ a ∧ a < x.address + 4
  deriving Decidable

def write (m : Nat → Nat) (x : Store) : Nat → Nat := fun a =>
  if x.Covers a then byte x.value (a - x.address) else m a

/-- The memory after the stores, the first one first. -/
def after (m : Nat → Nat) (stores : List Store) : Nat → Nat := stores.foldl write m

/-- Words at consecutive addresses. -/
def consecutive (address : Nat) : List Nat → List Store
  | [] => []
  | word :: words => ⟨address, word⟩ :: consecutive (address + 4) words

theorem after_append (m : Nat → Nat) (xs ys : List Store) :
    after m (xs ++ ys) = after (after m xs) ys := List.foldl_append

/-- A byte that no store covers is unchanged. -/
theorem after_uncovered {m : Nat → Nat} {xs : List Store} {a : Nat}
    (h : ∀ x ∈ xs, ¬ x.Covers a) : after m xs a = m a := by
  induction xs generalizing m with
  | nil => rfl
  | cons x xs ih =>
    have htail := ih (m := write m x) fun y hy => h y (List.mem_cons_of_mem x hy)
    rw [after, List.foldl_cons]
    exact htail.trans (if_neg (h x (by simp)))

theorem mem_consecutive {x : Store} {address : Nat} {words : List Nat}
    (h : x ∈ consecutive address words) :
    ∃ i < words.length, x.address = address + 4 * i := by
  induction words generalizing address with
  | nil => simp [consecutive] at h
  | cons word words ih =>
    rcases List.mem_cons.mp h with rfl | h
    · exact ⟨0, by simp, by simp⟩
    · obtain ⟨i, hi, hx⟩ := ih h
      exact ⟨i + 1, by simpa using hi, by rw [hx]; omega⟩

/-- Each byte of a run of words is found where it was stored. -/
theorem after_consecutive {words : List Nat} (m : Nat → Nat) (address : Nat) {j : Nat}
    (hj : j / 4 < words.length) :
    after m (consecutive address words) (address + j) = byte (words[j / 4]) (j % 4) := by
  induction words generalizing m address j with
  | nil => simp at hj
  | cons word words ih =>
    rw [consecutive, after, List.foldl_cons]
    change after (write m ⟨address, word⟩) (consecutive (address + 4) words) (address + j) = _
    by_cases hfirst : j < 4
    · have huncovered : ∀ x ∈ consecutive (address + 4) words, ¬ x.Covers (address + j) := by
        intro x hx hcovers
        obtain ⟨i, -, hi⟩ := mem_consecutive hx
        have := hcovers.1
        omega
      have hzero : j / 4 = 0 := by omega
      have hcovers : Store.Covers ⟨address, word⟩ (address + j) := by
        simp only [Store.Covers]
        omega
      rw [after_uncovered huncovered, write, if_pos hcovers]
      simp [hzero, Nat.mod_eq_of_lt hfirst]
    · obtain ⟨j, rfl⟩ := Nat.exists_eq_add_of_le' (Nat.le_of_not_lt hfirst)
      have hquot : (j + 4) / 4 = j / 4 + 1 := by omega
      simp only [hquot, List.length_cons, Nat.add_lt_add_iff_right] at hj
      have hstep := ih (write m ⟨address, word⟩) (address + 4) hj
      rw [show address + (j + 4) = address + 4 + j by omega, hstep]
      simp [hquot]

end Memory
