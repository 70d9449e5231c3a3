import Mathlib.Data.Nat.Bitwise
import Mathlib.Order.Interval.Finset.Nat

/-!
# Unsigned 32-bit words as naturals

Words are naturals below `2 ^ 32`; the operations that can leave that range
wrap explicitly. The last part is the arithmetic of alignment masks: clearing
the low `k` bits rounds down to a multiple of `2 ^ k`.
-/
namespace Word

/-- Keep the low 32 bits. -/
def wrap (n : Nat) : Nat := n % 2 ^ 32

/-- Difference of two words. -/
def sub (a b : Nat) : Nat := (2 ^ 32 + a - b) % 2 ^ 32

/-- Bitwise complement of a word. -/
def not (a : Nat) : Nat := 2 ^ 32 - 1 - a

/-- Number of leading zero bits of a word. -/
def clz (a : Nat) : Nat := if a = 0 then 32 else 31 - a.log2

/-- The signed number with these low 32 bits. -/
def signed (x : Int) : Int := (x + 2147483648) % 4294967296 - 2147483648

theorem signed_of_range {x : Int} (h : -2147483648 ≤ x) (hx : x < 2147483648) : signed x = x := by
  rw [signed]
  omega

theorem signed_natCast {n : Nat} (h : n < 2147483648) : signed n = n :=
  signed_of_range (by omega) (by omega)

theorem signed_add {m n : Nat} (h : m + n < 2147483648) : signed ((m : Int) + n) = m + n :=
  signed_of_range (by omega) (by omega)

theorem signed_sub {m n : Nat} (hm : m < 2147483648) (hn : n < 2147483648) :
    signed ((m : Int) - n) = m - n :=
  signed_of_range (by omega) (by omega)

theorem signed_succ (x : Int) : signed (signed x + 1) = signed (x + 1) := by
  simp only [signed]
  omega

theorem signed_pred (x : Int) : signed (signed x - 1) = signed (x - 1) := by
  simp only [signed]
  omega

/-- The sum of two numbers that is too large is negative. -/
theorem signed_add_neg {m n : Nat} (hm : m < 2147483648) (hn : n < 2147483648)
    (h : 2147483648 ≤ m + n) : signed ((m : Int) + n) < 0 := by
  rw [signed]
  omega

theorem wrap_of_lt {n : Nat} (h : n < 2 ^ 32) : wrap n = n := Nat.mod_eq_of_lt h

theorem sub_of_le {a b : Nat} (h : b ≤ a) (ha : a < 2 ^ 32) : sub a b = a - b := by
  simp only [sub]
  omega

/-- There are fewer different pointers than addresses, for null is none of them. -/
theorem length_lt {l : List Nat} {n : Nat} (hn : 0 < n) (hl : l.Nodup)
    (h : ∀ a ∈ l, 0 < a ∧ a < n) : l.length < n := by
  have hsub : l.toFinset ⊆ Finset.Ioo 0 n := fun a ha =>
    Finset.mem_Ioo.mpr (h a (List.mem_toFinset.mp ha))
  have hcard := Finset.card_le_card hsub
  rw [List.toFinset_card_of_nodup hl, Nat.card_Ioo] at hcard
  omega

/-- Counting on from any word, there is one that is not in a list of fewer than all words. -/
theorem exists_not_mem_wrap {l : List Nat} (hl : l.length < 2 ^ 32) (start : Nat) :
    ∃ i < 2 ^ 32, wrap (start + i) ∉ l := by
  by_contra hall
  have hmaps : ∀ i ∈ Finset.range (2 ^ 32), wrap (start + i) ∈ l.toFinset := by
    intro i hi
    by_contra hi'
    exact hall ⟨i, Finset.mem_range.mp hi, fun hmem => hi' (List.mem_toFinset.mpr hmem)⟩
  have hinj : Set.InjOn (fun i => wrap (start + i)) (Finset.range (2 ^ 32)) := by
    intro i hi j hj heq
    have hi := Finset.mem_range.mp (Finset.mem_coe.mp hi)
    have hj := Finset.mem_range.mp (Finset.mem_coe.mp hj)
    simp only [wrap] at heq
    omega
  have hcard := Finset.card_le_card_of_injOn _ hmaps hinj
  rw [Finset.card_range] at hcard
  have hle := l.toFinset_card_le
  omega

theorem wrap_lt (n : Nat) : wrap n < 2 ^ 32 := Nat.mod_lt _ (by decide)

/-! ## Sums of words -/

section

variable {α : Type} {f : α → Nat} {l : List α}

theorem sum_wrap_le : (l.map fun x => wrap (f x)).sum ≤ (l.map f).sum := by
  induction l with
  | nil => exact Nat.le_refl 0
  | cons x l ih =>
    have hx : wrap (f x) ≤ f x := Nat.mod_le _ _
    simpa only [List.map_cons, List.sum_cons] using Nat.add_le_add hx ih

/-- A sum of words is the sum of the numbers they were cut from only if none was cut. -/
theorem sum_wrap_eq_iff :
    (l.map fun x => wrap (f x)).sum = (l.map f).sum ↔ ∀ x ∈ l, f x < 2 ^ 32 := by
  induction l with
  | nil => simp
  | cons x l ih =>
    have hx : wrap (f x) ≤ f x := Nat.mod_le _ _
    have hl := sum_wrap_le (f := f) (l := l)
    have hword : wrap (f x) = f x ↔ f x < 2 ^ 32 := ⟨fun he => he ▸ wrap_lt _, wrap_of_lt⟩
    rw [List.forall_mem_cons, ← hword, ← ih, List.map_cons, List.map_cons, List.sum_cons,
      List.sum_cons]
    omega

/-- Fewer than `2 ^ 32` words add up to less than `2 ^ 64`. -/
theorem sum_wrap_lt (hl : l.length < 2 ^ 32) : (l.map fun x => wrap (f x)).sum < 2 ^ 64 := by
  have hle : ∀ l : List α, (l.map fun x => wrap (f x)).sum ≤ l.length * (2 ^ 32 - 1) := by
    intro l
    induction l with
    | nil => exact Nat.zero_le _
    | cons x l ih =>
      have hx := wrap_lt (f x)
      simp only [List.map_cons, List.sum_cons, List.length_cons]
      omega
  have := hle l
  omega

end

theorem clz_two_pow (k : Nat) : clz (2 ^ k) = 31 - k := by
  simp [clz, Nat.log2_two_pow]

/-- The mask with the low `k` bits clear rounds a word down. -/
theorem and_high_mask {x k : Nat} (hx : x < 2 ^ 32) (hk : k ≤ 32) :
    x &&& (2 ^ 32 - 2 ^ k) = x - x % 2 ^ k := by
  have hmask : 2 ^ 32 - 2 ^ k = (2 ^ (32 - k) - 1) <<< k := by
    rw [Nat.shiftLeft_eq, Nat.sub_mul, ← Nat.pow_add, Nat.sub_add_cancel hk, Nat.one_mul]
  have hlow : (x >>> k) % 2 ^ (32 - k) = x >>> k := by
    apply Nat.mod_eq_of_lt
    rw [Nat.shiftRight_eq_div_pow]
    apply Nat.div_lt_of_lt_mul
    rwa [← Nat.pow_add, Nat.add_sub_cancel' hk]
  have hsplit : x &&& ((2 ^ (32 - k) - 1) <<< k) =
      ((x >>> k) &&& (2 ^ (32 - k) - 1)) <<< k := by
    apply Nat.eq_of_testBit_eq
    intro i
    simp only [Nat.testBit_and, Nat.testBit_shiftLeft, Nat.testBit_shiftRight]
    by_cases hi : k ≤ i
    · simp [hi, Nat.add_sub_cancel' hi]
    · simp [hi]
  rw [hmask, hsplit, Nat.and_two_pow_sub_one_eq_mod, hlow, Nat.shiftLeft_eq,
    Nat.shiftRight_eq_div_pow]
  have := Nat.div_add_mod' x (2 ^ k)
  omega

theorem and_high_of_aligned {x k : Nat} (hx : x < 2 ^ 32) (hk : k ≤ 32) (h : x % 2 ^ k = 0) :
    x &&& (2 ^ 32 - 2 ^ k) = x := by
  rw [and_high_mask hx hk, h, Nat.sub_zero]

end Word
