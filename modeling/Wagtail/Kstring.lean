import Mathlib.Data.List.Basic

/-!
# Kernel strings

`kstring` as its characters up to the terminator, a `char` being an unsigned
byte. Lengths and offsets are `int`
in the source; no string of the kernel is long enough for a sum of two to
overflow.
-/
namespace WagtailKstring

abbrev Kstring := List Char

/-- `kstring::kstring(const kstring &, int, int)`. `none` when a character in front of a
buffer would be read or written. -/
def substring (string : Kstring) (startOffset endOffset : Int) : Option Kstring :=
  let length :=
    if startOffset + endOffset > string.length then string.length - startOffset
    else endOffset - startOffset
  if startOffset < 0 ∨ length < 0 then none
  else some ((string.drop startOffset.toNat).take length.toNat)

/-- From the start, the constructor copies a leading part. -/
theorem substring_zero (s : Kstring) (n : Nat) : substring s 0 n = some (s.take n) := by
  simp only [substring]
  by_cases hn : (n : Int) > s.length
  · have hlen : s.length ≤ n := by omega
    simp only [Int.zero_add, if_pos hn]
    rw [if_neg (by omega)]
    simp [List.take_of_length_le hlen]
  · simp only [Int.zero_add, if_neg hn]
    rw [if_neg (by omega)]
    simp

/-- Up to the whole length, the constructor copies everything from the start offset on. -/
theorem substring_length (s : Kstring) {n : Nat} (hn : n ≤ s.length) :
    substring s n s.length = some (s.drop n) := by
  have hrest : (if (n : Int) + s.length > s.length then (s.length : Int) - n
      else (s.length : Int) - n) = ((s.length - n : Nat) : Int) := by
    split <;> omega
  simp only [substring, hrest]
  rw [if_neg (by omega)]
  simp [List.take_of_length_le]

/-! ## Searching -/

/-- `kstring::index`; `none` is `npos`. -/
def index (string : Kstring) (c : Char) : Option Nat := string.findIdx? (· = c)

theorem index_none {s : Kstring} {c : Char} (h : c ∉ s) : index s c = none := by
  rw [index, List.findIdx?_eq_none_iff]
  intro d hd
  simpa using fun heq : d = c => h (heq ▸ hd)

theorem index_append {s : Kstring} {c : Char} (h : c ∉ s) (rest : Kstring) :
    index (s ++ c :: rest) c = some s.length := by
  have hs := index_none h
  rw [index] at hs
  simp [index, List.findIdx?_append, hs, List.findIdx?_cons]

/-- The loop of `kstring::rindex` from `i` down. It goes on in front of the buffer when the
character does not occur. -/
def rindexFrom (string : Kstring) (c : Char) : Nat → Option Nat
  | 0 => if string[0]? = some c then some 0 else none
  | i + 1 => if string[i + 1]? = some c then some (i + 1) else rindexFrom string c i

/-- `kstring::rindex`; `none` when the buffer is left. -/
def rindex (string : Kstring) (c : Char) : Option Nat := rindexFrom string c string.length

theorem rindexFrom_some {s : Kstring} {c : Char} {n i : Nat} (h : rindexFrom s c n = some i) :
    s[i]? = some c ∧ ∀ j, i < j → j ≤ n → s[j]? ≠ some c := by
  induction n with
  | zero =>
    simp only [rindexFrom, Option.ite_none_right_eq_some, Option.some_inj] at h
    obtain ⟨hc, rfl⟩ := h
    exact ⟨hc, fun j hlt hle => absurd hle (by omega)⟩
  | succ n ih =>
    rw [rindexFrom] at h
    by_cases hc : s[n + 1]? = some c
    · rw [if_pos hc, Option.some_inj] at h
      subst h
      exact ⟨hc, fun j hlt hle => absurd hle (by omega)⟩
    · rw [if_neg hc] at h
      refine ⟨(ih h).1, fun j hlt hle => ?_⟩
      by_cases hj : j = n + 1
      · rwa [hj]
      · exact (ih h).2 j hlt (by omega)

/-- The character behind which a string is cut is its last occurrence. -/
theorem rindex_some {s : Kstring} {c : Char} {i : Nat} (h : rindex s c = some i) :
    s = s.take i ++ c :: s.drop (i + 1) ∧ c ∉ s.drop (i + 1) := by
  obtain ⟨hi, hlast⟩ := rindexFrom_some h
  constructor
  · obtain ⟨hlt, hget⟩ := List.getElem?_eq_some_iff.mp hi
    rw [← hget, ← List.drop_eq_getElem_cons hlt, List.take_append_drop]
  · intro hmem
    obtain ⟨k, hk⟩ := List.mem_iff_getElem?.mp hmem
    rw [List.getElem?_drop] at hk
    obtain ⟨hlt, -⟩ := List.getElem?_eq_some_iff.mp hk
    exact hlast _ (by omega) (by omega) hk

theorem rindexFrom_append {s : Kstring} {c : Char} {last : Kstring} (h : c ∉ last) (n : Nat) :
    rindexFrom (s ++ c :: last) c (s.length + n) = some s.length := by
  induction n with
  | zero =>
    cases s with
    | nil => simp [rindexFrom]
    | cons d s => simp [rindexFrom]
  | succ n ih =>
    have hne : (s ++ c :: last)[s.length + n + 1]? ≠ some c := by
      rw [List.getElem?_append_right (by omega),
        show s.length + n + 1 - s.length = n + 1 by omega, List.getElem?_cons_succ]
      exact fun hget => h (List.mem_of_getElem? hget)
    rw [← Nat.add_assoc, rindexFrom, if_neg hne, ih]

theorem rindex_append {c : Char} {last : Kstring} (h : c ∉ last) (s : Kstring) :
    rindex (s ++ c :: last) c = some s.length := by
  rw [rindex, List.length_append]
  exact rindexFrom_append h _

/-- `kstring::dirname`. -/
def dirname (string : Kstring) : Option Kstring := do
  let lastSlash ← rindex string '/'
  substring string 0 lastSlash

/-- `kstring::filename`. -/
def filename (string : Kstring) : Option Kstring := do
  let lastSlash ← rindex string '/'
  some (string.drop (lastSlash + 1))

/-- A string from an array of bytes, up to the first zero. -/
def ofBytes (bytes : List UInt8) : Kstring :=
  (bytes.takeWhile (· ≠ 0)).map fun b => Char.ofNat b.toNat

/-! ## Character arrays -/

/-- `utils::strlen`. `none` when the array has no terminator. -/
def strlen : List UInt8 → Option Nat
  | [] => none
  | b :: string => if b = 0 then some 0 else (strlen string).map (· + 1)

/-- The loop of `utils::strcpy` and of `utils::strcat` over `n` indices from `i` on. `none` when
it leaves one of the arrays. -/
def copyChars (source : List UInt8) (offset : Nat) : Nat → Nat → List UInt8 → Option (List UInt8)
  | 0, _, dest => some dest
  | n + 1, i, dest =>
    match source[i]? with
    | none => none
    | some b =>
      if offset + i < dest.length then copyChars source offset n (i + 1) (dest.set (offset + i) b)
      else none

/-- `utils::strcpy`. -/
def strcpy (dest source : List UInt8) : Option (List UInt8) := do
  let length ← strlen source
  copyChars source 0 (length + 1) 0 dest

/-- `utils::strcat`. -/
def strcat (dest source : List UInt8) : Option (List UInt8) := do
  let offset ← strlen dest
  let length ← strlen source
  copyChars source offset (length + 1) 0 dest

/-- `kstring::prepend`; `memory` is what a new array holds. -/
def prepend (memory : Nat → UInt8) (buffer string : List UInt8) : Option (List UInt8) := do
  let length ← strlen string
  if length = 0 then some buffer
  else do
    let bufferLength ← strlen buffer
    let newBuffer ← strcpy ((List.range (bufferLength + length + 1)).map memory) string
    strcat newBuffer buffer

/-- The array starts with these characters and their terminator. -/
def Terminated (array text : List UInt8) : Prop :=
  (∀ b ∈ text, b ≠ 0) ∧ ∃ rest, array = text ++ 0 :: rest

variable {array source dest text t : List UInt8}

theorem Terminated.strlen (h : Terminated array text) : strlen array = some text.length := by
  obtain ⟨hne, rest, rfl⟩ := h
  induction text with
  | nil => rfl
  | cons b text ih =>
    rw [List.cons_append, WagtailKstring.strlen, if_neg (hne b (by simp)),
      ih fun c hc => hne c (List.mem_cons_of_mem b hc)]
    rfl

theorem Terminated.ofBytes (h : Terminated array text) :
    ofBytes array = text.map fun b => Char.ofNat b.toNat := by
  obtain ⟨hne, rest, rfl⟩ := h
  rw [WagtailKstring.ofBytes, List.takeWhile_append_of_pos (by simpa using hne)]
  simp

/-- The loop replaces what it runs over. -/
theorem copyChars_eq {before after : List UInt8} {offset i : Nat}
    (hsource : source.drop i = t ++ after) (hbefore : before.length = offset + i)
    (hdest : t.length ≤ dest.length) :
    copyChars source offset t.length i (before ++ dest) =
      some (before ++ t ++ dest.drop t.length) := by
  induction t generalizing i before dest with
  | nil => simp [copyChars]
  | cons b t ih =>
    obtain ⟨d, dest, rfl⟩ := List.exists_cons_of_length_pos (Nat.zero_lt_of_lt hdest)
    have hget : source[i]? = some b := by
      have hfirst := congrArg (·[0]?) hsource
      simpa [List.getElem?_drop] using hfirst
    have hnext : source.drop (i + 1) = t ++ after := by
      rw [← List.tail_drop, hsource]
      rfl
    have hset : (before ++ d :: dest).set (offset + i) b = (before ++ [b]) ++ dest := by
      rw [← hbefore]
      simp
    rw [List.length_cons, copyChars, hget]
    simp only [List.length_append, List.length_cons]
    have hlength : (before ++ [b]).length = offset + (i + 1) := by
      rw [List.length_append, List.length_singleton, hbefore, Nat.add_assoc]
    rw [if_pos (by omega), hset, ih hnext hlength (Nat.le_of_succ_le_succ hdest)]
    simp

theorem strcpy_eq (h : Terminated source text) (hdest : text.length < dest.length) :
    ∃ result, strcpy dest source = some result ∧ result.length = dest.length ∧
      Terminated result text := by
  obtain ⟨rest, hrest⟩ := h.2
  have hsource : source.drop 0 = (text ++ [0]) ++ rest := by simp [hrest]
  have hstart : ([] : List UInt8).length = 0 + 0 := rfl
  have hroom : (text ++ [0]).length ≤ dest.length := by
    rw [List.length_append, List.length_singleton]
    exact hdest
  have hcopy := copyChars_eq hsource hstart hroom
  rw [List.length_append, List.length_singleton] at hcopy
  refine ⟨text ++ [0] ++ dest.drop (text.length + 1), ?_, ?_, h.1, dest.drop (text.length + 1), ?_⟩
  · simp only [strcpy, h.strlen]
    exact hcopy
  · simp only [List.length_append, List.length_singleton, List.length_drop]
    omega
  · simp

theorem strcat_eq {array text : List UInt8} (h : Terminated source t)
    (harray : Terminated array text) (hroom : text.length + t.length < array.length) :
    ∃ result, strcat array source = some result ∧ Terminated result (text ++ t) := by
  obtain ⟨rest, hrest⟩ := h.2
  obtain ⟨free, rfl⟩ := harray.2
  have hsource : source.drop 0 = (t ++ [0]) ++ rest := by simp [hrest]
  have hstart : text.length = text.length + 0 := rfl
  have hfree : (t ++ [0]).length ≤ (0 :: free).length := by
    rw [List.length_append, List.length_cons] at hroom
    rw [List.length_append, List.length_singleton, List.length_cons]
    omega
  have hcopy := copyChars_eq hsource hstart hfree
  rw [List.length_append, List.length_singleton] at hcopy
  refine ⟨text ++ (t ++ [0]) ++ (0 :: free).drop (t.length + 1), ?_, ?_,
    (0 :: free).drop (t.length + 1), ?_⟩
  · simp only [strcat, h.strlen, harray.strlen]
    exact hcopy
  · intro b hb
    rcases List.mem_append.mp hb with hb | hb
    · exact harray.1 b hb
    · exact h.1 b hb
  · simp

/-- The buffer of a string after `prepend`, whatever the new array held before. -/
theorem prepend_ofBytes (memory : Nat → UInt8) (hbuffer : Terminated array text)
    (hstring : Terminated source t) :
    ∃ result, prepend memory array source = some result ∧ Terminated result (t ++ text) ∧
      ofBytes result = ofBytes source ++ ofBytes array := by
  have hjoined : ∀ {result : List UInt8}, Terminated result (t ++ text) →
      ofBytes result = ofBytes source ++ ofBytes array := by
    intro result h
    rw [h.ofBytes, hbuffer.ofBytes, hstring.ofBytes, List.map_append]
  by_cases hempty : t.length = 0
  · obtain rfl := List.length_eq_zero_iff.mp hempty
    refine ⟨array, ?_, hbuffer, hjoined hbuffer⟩
    simp [prepend, hstring.strlen]
  · have hnew : ((List.range (text.length + t.length + 1)).map memory).length =
        text.length + t.length + 1 := by
      rw [List.length_map, List.length_range]
    obtain ⟨copied, hcopied, hlength, hterminated⟩ := strcpy_eq hstring (by rw [hnew]; omega)
    rw [hnew] at hlength
    obtain ⟨result, hresult, hboth⟩ := strcat_eq hbuffer hterminated (by omega)
    refine ⟨result, ?_, hboth, hjoined hboth⟩
    simp only [prepend, hstring.strlen, hbuffer.strlen]
    change (if t.length = 0 then some array else
      (strcpy ((List.range (text.length + t.length + 1)).map memory) source).bind
        fun newBuffer => strcat newBuffer array) = some result
    rw [if_neg hempty, hcopied]
    exact hresult

end WagtailKstring
