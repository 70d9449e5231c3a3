import Mathlib.Data.Nat.Bitwise
import Wagtail.Kstring
import Wagtail.Library.Numeral
import Wagtail.Library.Runs

/-!
# Output streams

The characters that the operators of `kostream` put into a stream. An `int` is
its 32 bits, with the arithmetic of two's complement.
-/
namespace WagtailKstream

open WagtailKstring
open Numeral
open Runs (foldlM_snoc)

/-! ## The operators -/

/-- The `char` that is left of an `int`. -/
def charOf (n : BitVec 32) : Char := Char.ofNat (n.toNat % 256)

/-- The loop of `kostream::operator<<(int)` that fills its buffer, with `i` places left. -/
def fillBuffer : Nat → BitVec 32 → List Char → List Char
  | 0, _, buffer => buffer
  | i + 1, number, buffer =>
    fillBuffer i (number.sdiv 10)
      (buffer.set i (charOf (BitVec.ofNat 32 '0'.toNat + number.srem 10)))

/-- The loop that puts the buffer from place `i` on. -/
def putBuffer : Nat → Bool → List Char → List Char
  | _, _, [] => []
  | i, insideNum, c :: buffer =>
    -- Leading zeroes are not printed.
    if !insideNum && c == '0' && i != 9 then putBuffer (i + 1) insideNum buffer
    else c :: putBuffer (i + 1) true buffer

/-- `kostream::operator<<(int)`. -/
def putInt (number : BitVec 32) : List Char :=
  let (sign, number) :=
    if number &&& 0x80000000 ≠ 0 then (['-'], ~~~number + 1) else ([], number)
  sign ++ putBuffer 0 false (fillBuffer 10 number (List.replicate 10 '0'))

def hexDigits : List Char :=
  ['0', '1', '2', '3', '4', '5', '6', '7', '8', '9', 'a', 'b', 'c', 'd', 'e', 'f']

/-- The loop of `kostream::operator<<(void *)`, with this many digits left. -/
def putNibbles : Nat → BitVec 32 → List Char
  | 0, _ => []
  | n + 1, pointer =>
    hexDigits.getD (pointer >>> (4 * n) &&& 0xf).toNat '0' :: putNibbles n pointer

/-- `kostream::operator<<(void *)`. -/
def putPointer (pointer : BitVec 32) : List Char := '0' :: 'x' :: putNibbles 8 pointer

/-- `kostream::operator<<(const char *)`; `none` when the array has no terminator. -/
def putString : List UInt8 → Option (List Char)
  | [] => none
  | b :: string => if b = 0 then some [] else (putString string).map (Char.ofNat b.toNat :: ·)

theorem putString_eq {array text : List UInt8} (h : Terminated array text) :
    putString array = some (ofBytes array) := by
  rw [h.ofBytes]
  obtain ⟨hne, rest, rfl⟩ := h
  induction text with
  | nil => rfl
  | cons b text ih =>
    rw [List.cons_append, putString, if_neg (hne b (by simp)),
      ih fun c hc => hne c (List.mem_cons_of_mem b hc)]
    rfl

/-! ## Decimal numbers -/

/-- The canonical decimal representation of a number. -/
def IsDecimal (text : List Char) (n : Int) : Prop :=
  ∃ digits, Canonical 10 digits ∧ value 10 digits = n.natAbs ∧
    text = (if n < 0 then ['-'] else []) ++ digits.map Nat.digitChar

/-- What a character counts for. -/
def digitValue (c : Char) : Option Nat :=
  if 48 ≤ c.toNat ∧ c.toNat ≤ 57 then some (c.toNat - 48) else none

def parseNat (text : List Char) : Option Nat :=
  text.foldlM (fun n c => (digitValue c).map (10 * n + ·)) 0

/-- The number that a text represents. -/
def parseInt : List Char → Option Int
  | [] => none
  | c :: text =>
    if c = '-' then
      if text = [] then none else (parseNat text).map fun n : Nat => -(n : Int)
    else (parseNat (c :: text)).map fun n : Nat => (n : Int)

theorem digitValue_digitChar {d : Nat} (hd : d < 10) : digitValue (Nat.digitChar d) = some d := by
  revert d
  decide

theorem digitChar_ne_minus {d : Nat} (hd : d < 10) : Nat.digitChar d ≠ '-' := by
  revert d
  decide

theorem parseNat_digits {digits : List Nat} (h : ∀ d ∈ digits, d < 10) :
    parseNat (digits.map Nat.digitChar) = some (value 10 digits) := by
  induction digits using List.reverseRecOn with
  | nil => rfl
  | append_singleton digits d ih =>
    have ih := ih fun d' hd' => h d' (List.mem_append_left _ hd')
    rw [parseNat] at ih ⊢
    rw [List.map_append, List.map_singleton, foldlM_snoc, ih, Option.bind_eq_bind,
      Option.bind_some, digitValue_digitChar (h d (by simp)), value_snoc]
    rfl

/-- A decimal number stands for its number only. -/
theorem IsDecimal.parse {text : List Char} {n : Int} (h : IsDecimal text n) :
    parseInt text = some n := by
  obtain ⟨digits, hdigits, hvalue, rfl⟩ := h
  have hparse := parseNat_digits hdigits.digit
  rw [hvalue] at hparse
  obtain ⟨d, rest, rfl⟩ := List.exists_cons_of_ne_nil hdigits.nonempty
  by_cases hn : n < 0
  · rw [if_pos hn, List.singleton_append, parseInt, if_pos rfl, if_neg (by simp), hparse,
      Option.map_some]
    exact congrArg some (by omega)
  · have hfirst := digitChar_ne_minus (hdigits.digit d (by simp))
    rw [if_neg hn, List.nil_append, List.map_cons, parseInt, if_neg hfirst, ← List.map_cons,
      hparse, Option.map_some]
    exact congrArg some (by omega)

/-! ## The digits of a number -/

theorem charOf_digit {d : Nat} (hd : d < 10) :
    charOf (BitVec.ofNat 32 '0'.toNat + BitVec.ofNat 32 d) = Nat.digitChar d := by
  revert d
  decide

/-- Below `2 ^ 31` the digits come out one by one. -/
theorem divide {number : BitVec 32} (h : number.toNat < 2147483648) :
    (number.sdiv 10).toNat = number.toNat / 10 ∧
      number.srem 10 = BitVec.ofNat 32 (number.toNat % 10) := by
  have hmsb : number.msb = false := BitVec.msb_eq_false_iff_two_mul_lt.mpr (by omega)
  have hten : (10 : BitVec 32).msb = false := by decide
  constructor
  · rw [BitVec.sdiv_eq, hmsb, hten]
    simp
  · rw [BitVec.srem_eq, hmsb, hten]
    apply BitVec.eq_of_toNat_eq
    simp
    omega

theorem fillBuffer_eq {number : BitVec 32} (h : number.toNat < 2147483648) (i : Nat)
    (filled : List Char) :
    fillBuffer i number (List.replicate i '0' ++ filled) =
      (fixed 10 i number.toNat).map Nat.digitChar ++ filled := by
  induction i generalizing number filled with
  | zero => simp [fillBuffer, fixed]
  | succ i ih =>
    obtain ⟨hdiv, hrem⟩ := divide h
    have hset : (List.replicate (i + 1) '0' ++ filled).set i (Nat.digitChar (number.toNat % 10)) =
        List.replicate i '0' ++ (Nat.digitChar (number.toNat % 10) :: filled) := by
      rw [List.replicate_succ', List.append_assoc]
      simp
    have hdigit := charOf_digit (Nat.mod_lt number.toNat (show 0 < 10 by decide))
    rw [fillBuffer, hrem, hdigit, hset, ih (by omega), hdiv, fixed]
    simp

/-- The rest is printed as it is. -/
theorem putBuffer_inside (i : Nat) (buffer : List Char) : putBuffer i true buffer = buffer := by
  induction buffer generalizing i with
  | nil => rfl
  | cons c buffer ih => rw [putBuffer, Bool.not_true, Bool.false_and, Bool.false_and,
      if_neg Bool.false_ne_true, ih]

theorem putBuffer_zeros {i k : Nat} (hk : i + k ≤ 9) (buffer : List Char) :
    putBuffer i false (List.replicate k '0' ++ buffer) = putBuffer (i + k) false buffer := by
  induction k generalizing i with
  | zero => rfl
  | succ k ih =>
    have hlast : (i != 9) = true := by simp; omega
    rw [List.replicate_succ, List.cons_append, putBuffer, hlast]
    simp only [Bool.not_false, beq_self_eq_true, Bool.and_self, if_true]
    rw [ih (by omega), Nat.add_assoc, Nat.add_comm 1 k]

theorem digitChar_eq_zero {d : Nat} (hd : d < 10) : Nat.digitChar d = '0' ↔ d = 0 := by
  revert d
  decide

/-- In the end the buffer is printed from its first digit on. -/
theorem putBuffer_canonical {digits : List Nat} (h : Canonical 10 digits) {k : Nat}
    (hlength : k + digits.length = 10) :
    putBuffer 0 false (List.replicate k '0' ++ digits.map Nat.digitChar) =
      digits.map Nat.digitChar := by
  obtain ⟨d, rest, rfl⟩ := List.exists_cons_of_ne_nil h.nonempty
  rw [List.length_cons] at hlength
  rw [putBuffer_zeros (by omega), Nat.zero_add, List.map_cons, putBuffer, putBuffer_inside]
  apply if_neg
  by_cases hzero : d = 0
  · obtain rfl := h.leading rest (by rw [hzero])
    have hk : k = 9 := by simpa using hlength
    simp [hk]
  · simp [digitChar_eq_zero (h.digit d (by simp)), hzero]

theorem putBuffer_fill {number : BitVec 32} (h : number.toNat < 2147483648) :
    putBuffer 0 false (fillBuffer 10 number (List.replicate 10 '0')) =
      (numeral 10 number.toNat).map Nat.digitChar := by
  have hfill := fillBuffer_eq h 10 []
  rw [List.append_nil, List.append_nil] at hfill
  have hten : number.toNat < 10 ^ (9 + 1) := by omega
  obtain ⟨k, hk⟩ := fixed_eq_append (by decide) hten
  have hlength := congrArg List.length hk
  rw [length_fixed, List.length_append, List.length_replicate] at hlength
  rw [hfill, hk, List.map_append, List.map_replicate]
  exact putBuffer_canonical (numeral_canonical (by decide) _) hlength.symm

theorem sign_bit (number : BitVec 32) :
    number &&& 0x80000000 ≠ 0 ↔ 2147483648 ≤ number.toNat := by
  have hlt := number.isLt
  have hand : number.toNat &&& 2 ^ 31 = 2 ^ 31 * (number.toNat / 2 ^ 31 % 2) := by
    rw [Nat.and_comm, Nat.two_pow_and, Nat.testBit_eq_decide_div_mod_eq]
    rcases Nat.mod_two_eq_zero_or_one (number.toNat / 2 ^ 31) with h | h <;> rw [h] <;> rfl
  rw [ne_eq, ← BitVec.toNat_inj, BitVec.toNat_and]
  change ¬ number.toNat &&& 2 ^ 31 = 0 ↔ _
  rw [hand]
  omega

/-- Every number but the least one is printed as its decimal representation. -/
theorem putInt_decimal {number : BitVec 32} (h : number ≠ BitVec.intMin 32) :
    IsDecimal (putInt number) number.toInt := by
  have hlt := number.isLt
  have hmin : number.toNat ≠ 2147483648 := fun heq => h (BitVec.eq_of_toNat_eq heq)
  rw [putInt]
  by_cases hsign : 2147483648 ≤ number.toNat
  · have hneg : (~~~number + 1).toNat = 2 ^ 32 - number.toNat := by
      have hone : (1 : BitVec 32).toNat = 1 := rfl
      rw [BitVec.toNat_add, BitVec.toNat_not, hone]
      omega
    have htoInt : number.toInt = number.toNat - 4294967296 := by
      rw [BitVec.toInt_eq_toNat_cond]
      omega
    rw [if_pos ((sign_bit number).mpr hsign)]
    refine ⟨numeral 10 (~~~number + 1).toNat, numeral_canonical (by decide) _, ?_, ?_⟩
    · rw [value_numeral]
      omega
    · rw [if_pos (show number.toInt < 0 by omega)]
      exact congrArg (['-'] ++ ·) (putBuffer_fill (by omega))
  · have htoInt : number.toInt = number.toNat := by
      rw [BitVec.toInt_eq_toNat_cond]
      omega
    rw [if_neg (mt (sign_bit number).mp hsign)]
    refine ⟨numeral 10 number.toNat, numeral_canonical (by decide) _, ?_, ?_⟩
    · rw [value_numeral]
      omega
    · rw [if_neg (show ¬ number.toInt < 0 by omega)]
      exact putBuffer_fill (by omega)

/-- The least number has no positive counterpart: its remainders are negative. -/
theorem parse_intMin : parseInt (putInt (BitVec.intMin 32)) = none := by
  decide +kernel

/-- What is printed is the decimal representation, and it can be parsed again, for every number
but the least one. -/
theorem putInt_decimal_iff (number : BitVec 32) :
    IsDecimal (putInt number) number.toInt ∧ parseInt (putInt number) = some number.toInt ↔
      number ≠ BitVec.intMin 32 := by
  constructor
  · rintro ⟨-, hparse⟩ rfl
    rw [parse_intMin] at hparse
    cases hparse
  · intro h
    have hdecimal := putInt_decimal h
    exact ⟨hdecimal, hdecimal.parse⟩

theorem putInt_intMin : ¬ ∀ number : BitVec 32,
    IsDecimal (putInt number) number.toInt ∧ parseInt (putInt number) = some number.toInt := by
  intro hclaim
  have hparse := (hclaim (BitVec.intMin 32)).2
  rw [parse_intMin] at hparse
  cases hparse

/-! ## Pointers -/

theorem hexDigits_get {d : Nat} (hd : d < 16) : hexDigits.getD d '0' = Nat.digitChar d := by
  revert d
  decide

theorem putNibbles_eq (pointer : BitVec 32) (n : Nat) :
    putNibbles n pointer = (fixed 16 n pointer.toNat).map Nat.digitChar := by
  induction n with
  | zero => rfl
  | succ n ih =>
    have hnibble : (pointer >>> (4 * n) &&& 0xf).toNat = pointer.toNat / 16 ^ n % 16 := by
      have hpow : (16 : Nat) ^ n = 2 ^ (4 * n) := by rw [Nat.pow_mul]
      rw [BitVec.toNat_and, BitVec.toNat_ushiftRight, Nat.shiftRight_eq_div_pow, hpow]
      exact Nat.and_two_pow_sub_one_eq_mod _ 4
    rw [putNibbles, hnibble, hexDigits_get (Nat.mod_lt _ (by decide)), ih, fixed_succ,
      List.map_cons]

/-- A pointer is printed with eight hexadecimal digits, whose value it is. -/
theorem putPointer_eq (pointer : BitVec 32) : ∃ digits, digits.length = 8 ∧
    (∀ d ∈ digits, d < 16) ∧ value 16 digits = pointer.toNat ∧
    putPointer pointer = '0' :: 'x' :: digits.map Nat.digitChar := by
  have hlt := pointer.isLt
  refine ⟨fixed 16 8 pointer.toNat, length_fixed, fun d => mem_fixed (by decide), ?_, ?_⟩
  · exact value_fixed (by omega)
  · rw [putPointer, putNibbles_eq]

end WagtailKstream
