import Mathlib.Data.Nat.Digits.Lemmas

/-!
# Numerals, most significant digit first

The shortest numeral of a number, and the one that a program gets by dividing a
fixed number of times: the second is the first behind some zeros.
-/
namespace Numeral

variable {b w n : Nat}

/-- The value of a numeral. -/
def value (b : Nat) (ds : List Nat) : Nat := Nat.ofDigits b ds.reverse

/-- Some digits below the base, without a zero in front of others. -/
structure Canonical (b : Nat) (ds : List Nat) : Prop where
  nonempty : ds ≠ []
  digit : ∀ d ∈ ds, d < b
  leading : ∀ rest, ds = 0 :: rest → rest = []

/-- The digits of a number. -/
def numeral (b n : Nat) : List Nat := if n = 0 then [0] else (Nat.digits b n).reverse

/-- The last `w` digits of a number. -/
def fixed (b : Nat) : Nat → Nat → List Nat
  | 0, _ => []
  | w + 1, n => fixed b w (n / b) ++ [n % b]

@[simp] theorem value_nil : value b [] = 0 := rfl

theorem value_snoc (ds : List Nat) (d : Nat) : value b (ds ++ [d]) = b * value b ds + d := by
  rw [value, List.reverse_append, List.reverse_singleton, List.singleton_append, Nat.ofDigits_cons,
    Nat.add_comm]
  rfl

theorem value_numeral : value b (numeral b n) = n := by
  rw [numeral]
  by_cases hn : n = 0
  · rw [if_pos hn, hn]
    rfl
  · rw [if_neg hn, value, List.reverse_reverse, Nat.ofDigits_digits]

/-- Another digit behind the numeral of a number that is not zero. -/
theorem numeral_step (hb : 1 < b) (hn : b ≤ n) :
    numeral b n = numeral b (n / b) ++ [n % b] := by
  have hpos : n / b ≠ 0 := Nat.pos_iff_ne_zero.mp (Nat.div_pos hn (by omega))
  rw [numeral, if_neg (by omega), Nat.digits_def' hb (by omega), List.reverse_cons, numeral,
    if_neg hpos]

theorem numeral_digit (hn : n < b) : numeral b n = [n] := by
  rw [numeral]
  by_cases hzero : n = 0
  · rw [if_pos hzero, hzero]
  · rw [if_neg hzero, Nat.digits_of_lt b n hzero hn, List.reverse_singleton]

theorem numeral_canonical (hb : 1 < b) (n : Nat) : Canonical b (numeral b n) := by
  by_cases hn : n = 0
  · subst hn
    rw [numeral_digit (by omega)]
    refine ⟨by simp, fun d hd => ?_, fun rest hrest => ?_⟩
    · rw [List.mem_singleton.mp hd]
      omega
    · exact (List.cons.inj hrest).2.symm
  · rw [numeral, if_neg hn]
    have hnonempty : Nat.digits b n ≠ [] := Nat.digits_ne_nil_iff_ne_zero.mpr hn
    refine ⟨by simpa using hnonempty, fun d hd => ?_, fun rest hrest => ?_⟩
    · exact Nat.digits_lt_base hb (List.mem_reverse.mp hd)
    · have hlast := Nat.getLast_digit_ne_zero b hn
      have hhead : (Nat.digits b n).getLast hnonempty = 0 := by
        have hfirst := congrArg List.head? hrest
        rw [List.head?_reverse, List.getLast?_eq_some_getLast hnonempty] at hfirst
        exact Option.some.inj hfirst
      exact absurd hhead hlast

@[simp] theorem length_fixed : (fixed b w n).length = w := by
  induction w generalizing n with
  | zero => rfl
  | succ w ih => rw [fixed, List.length_append, ih, List.length_singleton]

theorem fixed_zero : fixed b w 0 = List.replicate w 0 := by
  induction w with
  | zero => rfl
  | succ w ih => rw [fixed, Nat.zero_div, Nat.zero_mod, ih, List.replicate_succ']

/-- In enough digits a number is its numeral behind some zeros. -/
theorem fixed_eq_append (hb : 1 < b) (hn : n < b ^ (w + 1)) :
    ∃ k, fixed b (w + 1) n = List.replicate k 0 ++ numeral b n := by
  induction w generalizing n with
  | zero =>
    rw [Nat.zero_add, Nat.pow_one] at hn
    exact ⟨0, by simp [fixed, numeral_digit hn, Nat.mod_eq_of_lt hn]⟩
  | succ w ih =>
    rw [fixed]
    by_cases hdigit : n < b
    · refine ⟨w + 1, ?_⟩
      rw [Nat.div_eq_of_lt hdigit, fixed_zero, Nat.mod_eq_of_lt hdigit, numeral_digit hdigit]
    · have hle := Nat.le_of_not_lt hdigit
      have hdiv : n / b < b ^ (w + 1) := by
        rw [Nat.div_lt_iff_lt_mul (by omega), ← Nat.pow_succ]
        exact hn
      obtain ⟨k, hk⟩ := ih hdiv
      exact ⟨k, by rw [hk, numeral_step hb hle, List.append_assoc]⟩

/-- The first of `w + 1` digits. -/
theorem fixed_succ : fixed b (w + 1) n = n / b ^ w % b :: fixed b w n := by
  induction w generalizing n with
  | zero => simp [fixed]
  | succ w ih =>
    rw [fixed, ih, List.cons_append, fixed, Nat.div_div_eq_div_mul, ← Nat.pow_succ']

theorem value_fixed (hn : n < b ^ w) : value b (fixed b w n) = n := by
  induction w generalizing n with
  | zero =>
    rw [Nat.pow_zero] at hn
    simp [fixed, show n = 0 by omega]
  | succ w ih =>
    have hdiv : n / b < b ^ w := Nat.div_lt_of_lt_mul (by rwa [Nat.mul_comm, ← Nat.pow_succ])
    rw [fixed, value_snoc, ih hdiv, Nat.div_add_mod]

theorem mem_fixed (hb : 0 < b) {d : Nat} (hd : d ∈ fixed b w n) : d < b := by
  induction w generalizing n with
  | zero => cases hd
  | succ w ih =>
    rw [fixed, List.mem_append, List.mem_singleton] at hd
    obtain hd | rfl := hd
    · exact ih hd
    · exact Nat.mod_lt n hb

end Numeral
