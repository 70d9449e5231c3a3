import Wagtail.Kstring
import Wagtail.Library.Word

/-!
# Where strings are searched and cut

`kstring::rindex` in the memory around the buffer of a string, where its loop
goes on when the string does not have the character, and the constructor that
copies a part of a string, with the arithmetic of `int`.
-/
namespace WagtailKstring

open Word (wrap signed signed_natCast signed_add signed_add_neg signed_sub)

variable {memory : Nat → Char} {buffer : Nat} {s : Kstring} {c : Char}

/-! ## Searching from the end -/

/-- `kstring::npos`. -/
def npos : Int := -1

/-- The loop of `kstring::rindex` from the index `i` on, for some turns: the addresses that it
reads, and what it returns if it has come to that. -/
def rindexLoop (memory : Nat → Char) (buffer : Nat) (c : Char) :
    Nat → Nat → List Nat × Option Int
  | 0, _ => ([], none)
  | turns + 1, i =>
    -- `i >= 0` is true of every unsigned number.
    if memory (wrap (buffer + i)) = c then ([wrap (buffer + i)], some (signed i))
    else
      let (reads, result) := rindexLoop memory buffer c turns (Word.sub i 1)
      (wrap (buffer + i) :: reads, result)

/-- The buffer of a string, in the kernel's half of the address space. -/
structure Holds (memory : Nat → Char) (buffer : Nat) (s : Kstring) : Prop where
  kernel : 0x80000000 ≤ buffer
  stop : buffer + s.length < 2 ^ 32
  text : '\x00' ∉ s
  char : ∀ i (hi : i < s.length), memory (buffer + i) = s[i]
  terminator : memory (buffer + s.length) = '\x00'

/-- The index of the last occurrence of a character, or `npos`. -/
def IsLastIndex (s : Kstring) (c : Char) (result : Int) : Prop :=
  (∃ i : Nat, result = i ∧ s[i]? = some c ∧ ∀ j, i < j → s[j]? ≠ some c) ∨ c ∉ s ∧ result = npos

/-- The loop ends, it reads the buffer only, and it finds the last occurrence. -/
def Searches (memory : Nat → Char) (buffer : Nat) (s : Kstring) (c : Char) : Prop :=
  ∃ turns reads result, rindexLoop memory buffer c turns s.length = (reads, some result) ∧
    (∀ address ∈ reads, buffer ≤ address ∧ address ≤ buffer + s.length) ∧ IsLastIndex s c result

theorem Holds.length_lt (h : Holds memory buffer s) : s.length < 2147483648 := by
  have hkernel := h.kernel
  have hstop := h.stop
  omega

theorem Holds.address (h : Holds memory buffer s) {i : Nat} (hi : i ≤ s.length) :
    wrap (buffer + i) = buffer + i := by
  have hstop := h.stop
  exact Word.wrap_of_lt (by omega)

/-- What is read at an index of the buffer. -/
theorem Holds.read (h : Holds memory buffer s) (hc : c ≠ '\x00') {i : Nat} (hi : i ≤ s.length) :
    memory (wrap (buffer + i)) = c ↔ s[i]? = some c := by
  rw [h.address hi]
  rcases Nat.lt_or_eq_of_le hi with hlt | rfl
  · rw [h.char i hlt, List.getElem?_eq_getElem hlt, Option.some_inj]
  · rw [h.terminator, List.getElem?_eq_none (Nat.le_refl _)]
    exact iff_of_false hc.symm (by simp)

/-- The first turn reads at the index that the loop has come to. -/
theorem mem_rindexLoop (turns i : Nat) :
    wrap (buffer + i) ∈ (rindexLoop memory buffer c (turns + 1) i).1 := by
  rw [rindexLoop]
  split_ifs <;> simp

/-- A turn that does not find the character. -/
theorem rindexLoop_succ {i : Nat} (hat : memory (wrap (buffer + i)) ≠ c) (turns : Nat) :
    rindexLoop memory buffer c (turns + 1) i =
      (wrap (buffer + i) :: (rindexLoop memory buffer c turns (Word.sub i 1)).1,
        (rindexLoop memory buffer c turns (Word.sub i 1)).2) := by
  rw [rindexLoop, if_neg hat]

/-- Inside of the buffer the loop is the search for the last occurrence. -/
theorem rindexLoop_some (h : Holds memory buffer s) (hc : c ≠ '\x00') {n i : Nat}
    (hn : n ≤ s.length) (hi : rindexFrom s c n = some i) :
    ∃ reads, rindexLoop memory buffer c (n + 1) n = (reads, some (i : Int)) ∧
      ∀ address ∈ reads, buffer ≤ address ∧ address ≤ buffer + s.length := by
  have hread := h.read hc hn
  have haddress := h.address hn
  have hlength := h.length_lt
  have hsigned : signed n = n := signed_natCast (by omega)
  have hinside : buffer ≤ wrap (buffer + n) ∧ wrap (buffer + n) ≤ buffer + s.length := by omega
  induction n with
  | zero =>
    simp only [rindexFrom, Option.ite_none_right_eq_some, Option.some_inj] at hi
    obtain ⟨hat, rfl⟩ := hi
    rw [rindexLoop, if_pos (hread.mpr hat), hsigned]
    exact ⟨_, rfl, List.forall_mem_singleton.mpr hinside⟩
  | succ n ih =>
    rw [rindexFrom] at hi
    by_cases hat : s[n + 1]? = some c
    · rw [if_pos hat, Option.some_inj] at hi
      subst hi
      rw [rindexLoop, if_pos (hread.mpr hat), hsigned]
      exact ⟨_, rfl, List.forall_mem_singleton.mpr hinside⟩
    · rw [if_neg hat] at hi
      have haddress' := h.address (i := n) (by omega)
      obtain ⟨reads, hloop, hreads⟩ := ih (by omega) hi (h.read hc (by omega)) haddress'
        (signed_natCast (by omega)) (by omega)
      have hdown : Word.sub (n + 1) 1 = n := Word.sub_of_le (by omega) (by omega)
      rw [rindexLoop_succ (mt hread.mp hat), hdown, hloop]
      exact ⟨_, rfl, List.forall_mem_cons.mpr ⟨hinside, hreads⟩⟩

/-- A loop that finds nothing in the buffer reads in front of it, if it ends at all. -/
theorem rindexLoop_absent (h : Holds memory buffer s) (hc : c ≠ '\x00') (habsent : c ∉ s) {n : Nat}
    (hn : n ≤ s.length) {turns : Nat} {reads : List Nat} {result : Int}
    (hloop : rindexLoop memory buffer c turns n = (reads, some result)) :
    buffer - 1 ∈ reads := by
  have hmiss : ∀ i ≤ s.length, memory (wrap (buffer + i)) ≠ c := fun i hi heq =>
    habsent (List.mem_of_getElem? ((h.read hc hi).mp heq))
  have hkernel := h.kernel
  have hstop := h.stop
  obtain _ | turns := turns
  · cases hloop
  induction n generalizing turns reads with
  | zero =>
    rw [rindexLoop_succ (hmiss 0 hn)] at hloop
    obtain ⟨rfl, hresult⟩ := Prod.mk.inj hloop
    obtain _ | turns := turns
    · cases hresult
    have hfront : wrap (buffer + Word.sub 0 1) = buffer - 1 := by
      simp only [wrap, Word.sub]
      omega
    exact List.mem_cons_of_mem _ (hfront ▸ mem_rindexLoop turns _)
  | succ n ih =>
    have hdown : Word.sub (n + 1) 1 = n := Word.sub_of_le (by omega) (by omega)
    rw [rindexLoop_succ (hmiss (n + 1) hn), hdown] at hloop
    obtain ⟨rfl, hresult⟩ := Prod.mk.inj hloop
    obtain _ | turns := turns
    · cases hresult
    exact List.mem_cons_of_mem _ (ih (by omega) turns (Prod.ext rfl hresult))

theorem rindexFrom_of_mem {n : Nat} {i : Nat} (hi : s[i]? = some c) (hn : i ≤ n) :
    ∃ j, rindexFrom s c n = some j := by
  induction n with
  | zero =>
    obtain rfl : i = 0 := by omega
    exact ⟨0, by rw [rindexFrom, if_pos hi]⟩
  | succ n ih =>
    rw [rindexFrom]
    by_cases hat : s[n + 1]? = some c
    · exact ⟨n + 1, if_pos hat⟩
    · rw [if_neg hat]
      refine ih (Nat.le_of_lt_succ (Nat.lt_of_le_of_ne hn ?_))
      rintro rfl
      exact hat hi

theorem rindex_isSome : (rindex s c).isSome = true ↔ c ∈ s := by
  constructor
  · intro hsome
    obtain ⟨i, hi⟩ := Option.isSome_iff_exists.mp hsome
    exact List.mem_of_getElem? (rindexFrom_some hi).1
  · intro hmem
    obtain ⟨i, hi⟩ := List.mem_iff_getElem?.mp hmem
    obtain ⟨hlt, -⟩ := List.getElem?_eq_some_iff.mp hi
    exact Option.isSome_iff_exists.mpr (rindexFrom_of_mem hi (Nat.le_of_lt hlt))

/-- The search does what it should exactly if there is something to find. -/
theorem searches_iff (h : Holds memory buffer s) (hc : c ≠ '\x00') :
    Searches memory buffer s c ↔ c ∈ s := by
  constructor
  · rintro ⟨turns, reads, result, hloop, hreads, -⟩
    by_contra habsent
    have hkernel := h.kernel
    have hfront := hreads _ (rindexLoop_absent h hc habsent (Nat.le_refl _) hloop)
    omega
  · intro hmem
    obtain ⟨i, hi⟩ := Option.isSome_iff_exists.mp (rindex_isSome.mpr hmem)
    obtain ⟨reads, hloop, hreads⟩ := rindexLoop_some h hc (Nat.le_refl _) hi
    obtain ⟨hat, hlast⟩ := rindexFrom_some hi
    refine ⟨_, reads, i, hloop, hreads, .inl ⟨i, rfl, hat, fun j hj => ?_⟩⟩
    by_cases hlt : j ≤ s.length
    · exact hlast j hj hlt
    · rw [List.getElem?_eq_none (by omega)]
      simp

/-- `rindex` of the model is what the loop finds in the buffer. -/
theorem searches_iff_rindex (h : Holds memory buffer s) (hc : c ≠ '\x00') :
    Searches memory buffer s c ↔ (rindex s c).isSome = true := by
  rw [searches_iff h hc, rindex_isSome]

/-- `dirname` and `filename` end, and they are the two sides of the last slash. -/
def Splits (s : Kstring) : Prop :=
  ∃ dir file, dirname s = some dir ∧ filename s = some file ∧
    ('/' ∈ s → s = dir ++ '/' :: file ∧ '/' ∉ file)

theorem splits_iff : Splits s ↔ '/' ∈ s := by
  constructor
  · rintro ⟨dir, file, hdir, -⟩
    rw [← rindex_isSome]
    cases hslash : rindex s '/' with
    | none =>
      rw [dirname, hslash] at hdir
      cases hdir
    | some i => rfl
  · intro hmem
    obtain ⟨i, hi⟩ := Option.isSome_iff_exists.mp (rindex_isSome.mpr hmem)
    refine ⟨s.take i, s.drop (i + 1), ?_, ?_, fun _ => rindex_some hi⟩
    · simp only [dirname, hi, Option.bind_eq_bind, Option.bind_some]
      exact substring_zero s i
    · simp only [filename, hi, Option.bind_eq_bind, Option.bind_some]

/-- A search does what it should exactly if the character occurs, and a path comes apart exactly
if it has a slash. -/
theorem rindex_splits_iff (h : Holds memory buffer s) (hc : c ≠ '\x00') :
    (Searches memory buffer s c ↔ c ∈ s) ∧ (Splits s ↔ '/' ∈ s) :=
  ⟨searches_iff h hc, splits_iff⟩

/-- A string at an address, in memory that is zero otherwise. -/
def memoryOf (buffer : Nat) (s : Kstring) : Nat → Char := fun address =>
  s.getD (address - buffer) '\x00'

theorem memoryOf_holds (hkernel : 0x80000000 ≤ buffer) (hstop : buffer + s.length < 2 ^ 32)
    (htext : '\x00' ∉ s) : Holds (memoryOf buffer s) buffer s where
  kernel := hkernel
  stop := hstop
  text := htext
  char i hi := by simp [memoryOf, hi]
  terminator := by simp [memoryOf]

theorem path_splits :
    Searches (memoryOf 0x81000000 ['a', '/', 'b']) 0x81000000 ['a', '/', 'b'] 'a' ∧
      Splits ['a', '/', 'b'] := by
  have hpath : Holds (memoryOf 0x81000000 ['a', '/', 'b']) 0x81000000 ['a', '/', 'b'] :=
    memoryOf_holds (by decide) (by decide) (by decide)
  obtain ⟨hsearches, hsplits⟩ := rindex_splits_iff (c := 'a') hpath (by decide)
  exact ⟨hsearches.mpr (by decide), hsplits.mpr (by decide)⟩

/-- A name without a slash. -/
theorem name_not_searched : ¬ ∀ (memory : Nat → Char) (buffer : Nat) (s : Kstring) (c : Char),
    Holds memory buffer s → c ≠ '\x00' → Searches memory buffer s c ∧ Splits s := by
  intro hclaim
  have hname : Holds (memoryOf 0x81000000 ['a']) 0x81000000 ['a'] :=
    memoryOf_holds (by decide) (by decide) (by decide)
  have hsearches := (hclaim _ _ _ '/' hname (by decide)).1
  exact absurd ((searches_iff hname (by decide)).mp hsearches) (by decide)

/-! ## Parts of strings -/

/-- `kstring::kstring(const kstring &, int, int)` for any two offsets. `none` when a character
outside of a buffer is read or written. -/
def newKstring (string : Kstring) (startOffset endOffset : Int) : Option Kstring :=
  let length :=
    if signed (startOffset + endOffset) > signed string.length then
      signed (string.length - startOffset)
    else signed (endOffset - startOffset)
  if length < 0 ∨ 0 < length ∧ (startOffset < 0 ∨ startOffset + length > string.length + 1) then
    none
  else some ((string.drop startOffset.toNat).take length.toNat)

/-- The sum of the offsets tells whether the second one lies behind the string, or it is negative
because it has left the range of `int`. -/
def CutsRight (s : Kstring) (a b : Nat) : Prop :=
  if a + b < 2147483648 then a + b ≤ s.length ∨ s.length ≤ b else b ≤ s.length + 1

section

variable {a b : Nat}

/-- Where the sum is an `int`, the constructor is the one that the drivers are modelled with. -/
theorem newKstring_eq_substring (hs : s.length < 2147483648) (hab : a + b < 2147483648) :
    newKstring s a b = substring s a b := by
  have ha : a < 2147483648 := by omega
  have hb : b < 2147483648 := by omega
  simp only [newKstring, substring, signed_add hab, signed_natCast hs, signed_sub hs ha,
    signed_sub hb ha]
  split_ifs <;> first | rfl | omega

/-- The part between two offsets is cut exactly under this condition. -/
theorem newKstring_slice_iff (ha : a ≤ s.length) (hab : a ≤ b) (hb : b < 2147483648)
    (hs : s.length < 2147483648) :
    newKstring s a b = some ((s.take b).drop a) ↔ CutsRight s a b := by
  have ha' : a < 2147483648 := Nat.lt_of_le_of_lt hab hb
  simp only [newKstring, CutsRight, signed_natCast hs, signed_sub hs ha', signed_sub hb ha',
    Int.toNat_natCast]
  by_cases hsum : a + b < 2147483648
  · rw [if_pos hsum, signed_add hsum]
    by_cases hgt : (a : Int) + b > s.length
    · -- The rest of the string is taken.
      rw [if_pos hgt, if_neg (by omega), Int.toNat_sub, Option.some_inj]
      constructor
      · intro heq
        have hlengths := congrArg List.length heq
        simp only [List.length_take, List.length_drop] at hlengths
        omega
      · intro hcut
        rw [List.take_of_length_le (by rw [List.length_drop]), List.take_of_length_le (by omega)]
    · rw [if_neg hgt, if_neg (by omega), Int.toNat_sub, List.drop_take]
      exact iff_of_true rfl (.inl (by omega))
  · have hneg := signed_add_neg ha' hb (Nat.le_of_not_lt hsum)
    have hle : ¬ signed ((a : Int) + b) > s.length := by omega
    rw [if_neg hsum, if_neg hle]
    by_cases hinside : b ≤ s.length + 1
    · rw [if_neg (by omega), Int.toNat_sub, List.drop_take]
      exact iff_of_true rfl hinside
    · rw [if_pos (by omega)]
      exact iff_of_false (by simp) hinside

/-- Cut at any index, the two parts of a string are the string again. -/
def Joins (s : Kstring) : Prop :=
  ∀ i : Nat, i ≤ s.length → ∃ front rest, newKstring s 0 i = some front ∧
    newKstring s i s.length = some rest ∧ front ++ rest = s

theorem joins (hs : s.length < 2147483648) : Joins s := by
  intro i hi
  have hfront : CutsRight s 0 i := by
    rw [CutsRight, if_pos (by omega)]
    omega
  have hrest : CutsRight s i s.length := by
    rw [CutsRight]
    split_ifs <;> omega
  refine ⟨s.take i, s.drop i, ?_, ?_, List.take_append_drop i s⟩
  · exact (newKstring_slice_iff (Nat.zero_le _) (Nat.zero_le _) (by omega) hs).mpr hfront
  · rw [(newKstring_slice_iff hi hi hs hs).mpr hrest, List.take_length]

/-- A part is cut right exactly under the condition, and a string cut in two always is. -/
theorem newKstring_parts (ha : a ≤ s.length) (hab : a ≤ b) (hb : b < 2147483648)
    (hs : s.length < 2147483648) :
    (newKstring s a b = some ((s.take b).drop a) ↔ CutsRight s a b) ∧ Joins s :=
  ⟨newKstring_slice_iff ha hab hb hs, joins hs⟩

end

theorem abcd_parts : newKstring ['a', 'b', 'c', 'd'] (1 : Nat) (3 : Nat) = some ['b', 'c'] ∧
    Joins ['a', 'b', 'c', 'd'] := by
  obtain ⟨hpart, hjoins⟩ := newKstring_parts (s := ['a', 'b', 'c', 'd']) (a := 1) (b := 3)
    (by decide) (by decide) (by decide) (by decide)
  exact ⟨hpart.mpr (.inl (by decide)), hjoins⟩

/-- One character from the second half of a string: the rest of the string is copied. -/
theorem abcd_not_cut : ¬ ∀ (s : Kstring) (a b : Nat), a ≤ s.length → a ≤ b → b < 2147483648 →
    s.length < 2147483648 → newKstring s a b = some ((s.take b).drop a) := by
  intro hclaim
  exact absurd (hclaim ['a', 'b', 'c', 'd'] 2 3 (by decide) (by decide) (by decide) (by decide))
    (by decide)

end WagtailKstring
