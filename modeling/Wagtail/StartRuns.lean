import Wagtail.StartExit

/-!
# Runs of the start code

What the start code does before it waits. The loops compare with the end of what
they go through, so they end when it is a number of words away.
-/
namespace WagtailStart

open Word (wrap)

variable {e : Environment} {m m' : Machine}

/-! ## Runs -/

def Reaches (e : Environment) (m m' : Machine) : Prop := ∃ n, run e startCode n m = some m'

theorem Reaches.refl (m : Machine) : Reaches e m m := ⟨0, rfl⟩

/-- One line, and what follows it. -/
theorem Reaches.line {line : Line} {m₁ : Machine} (hline : startCode[m.pc]? = some line)
    (hexecute : execute e startCode m line = some m₁) (h : Reaches e m₁ m') : Reaches e m m' := by
  obtain ⟨n, hn⟩ := h
  refine ⟨n + 1, ?_⟩
  rw [run, step, hline, Option.bind_some, hexecute, Option.bind_some, hn]

theorem Reaches.trans {m₁ : Machine} (h : Reaches e m m₁) (h' : Reaches e m₁ m') :
    Reaches e m m' := by
  obtain ⟨n, hn⟩ := h
  induction n generalizing m with
  | zero =>
    obtain rfl := Option.some.inj hn
    exact h'
  | succ n ih =>
    obtain ⟨m₂, hstep, hrest⟩ := Option.bind_eq_some_iff.mp hn
    obtain ⟨line, hline, hexecute⟩ := Option.bind_eq_some_iff.mp hstep
    exact .line hline hexecute (ih hrest)

/-! ### Zeroing -/

/-- Memory after bytes have been set to zero. -/
def zeroBytes (memory : Nat → UInt8) (start size : Nat) : Nat → UInt8 :=
  fun x => if start ≤ x ∧ x < start + size then 0 else memory x

theorem byteOf_zero (i : Nat) : byteOf 0 i = 0 := by
  simp [byteOf]

theorem storeWord_zero (memory : Nat → UInt8) {a : Nat} (ha : a + 4 ≤ 2 ^ 32) :
    storeWord memory a 0 = zeroBytes memory a 4 := by
  have haddress : ∀ i < 4, wrap (a + i) = a + i := fun i hi => Word.wrap_of_lt (by omega)
  funext x
  simp only [storeWord, List.range, List.range.loop, List.foldl_cons, List.foldl_nil, byteOf_zero,
    haddress 0 (by decide), haddress 1 (by decide), haddress 2 (by decide),
    haddress 3 (by decide), Function.update_apply, zeroBytes]
  split_ifs <;> first | rfl | omega

@[simp] theorem zeroBytes_zero (memory : Nat → UInt8) (a : Nat) :
    zeroBytes memory a 0 = memory := by
  funext x
  exact if_neg (by omega)

@[simp] theorem zeroed_zero (a : Nat) : zeroed a 0 = [] := rfl

theorem zeroBytes_append (memory : Nat → UInt8) (a n k : Nat) :
    zeroBytes (zeroBytes memory a n) (a + n) k = zeroBytes memory a (n + k) := by
  funext x
  simp only [zeroBytes]
  by_cases hk : a + n ≤ x ∧ x < a + n + k
  · rw [if_pos hk, if_pos (by omega)]
  · rw [if_neg hk]
    by_cases hn : a ≤ x ∧ x < a + n
    · rw [if_pos hn, if_pos (by omega)]
    · rw [if_neg hn, if_neg (by omega)]

theorem zeroed_append (a n k : Nat) : zeroed a (n + k) = zeroed a n ++ zeroed (a + n) k := by
  simp [zeroed, List.range_add, Nat.add_assoc]

/-- One turn of the loop. -/
theorem zero_turn {a stop : Nat} (zero : Bool) (stack : List Nat) (memory : Nat → UInt8)
    (trace : List Event) (hne : a ≠ stop) (ha : a + 4 < 2 ^ 32) :
    Reaches e ⟨a, stop, 0, zero, stack, memory, 3, trace⟩
      ⟨a + 4, stop, 0, false, stack, zeroBytes memory a 4, 3, trace ++ zeroed a 4⟩ := by
  have hcmp : execute e startCode ⟨a, stop, 0, zero, stack, memory, 4, trace⟩ (.cmp .r0 .r1) =
      some ⟨a, stop, 0, false, stack, memory, 5, trace⟩ := by
    simp [execute, Machine.get, Machine.next, hne]
  have hstr : execute e startCode ⟨a, stop, 0, false, stack, memory, 6, trace⟩ (.strne .r2 .r0 4) =
      some ⟨a + 4, stop, 0, false, stack, zeroBytes memory a 4, 7, trace ++ zeroed a 4⟩ := by
    have hwrap : wrap (a + 4) = a + 4 := Word.wrap_of_lt ha
    have hbytes : ((List.range 4).map fun i => Event.stored (wrap (a + i)) (byteOf 0 i)) =
        zeroed a 4 := by
      refine List.map_congr_left fun i hi => ?_
      have hi := List.mem_range.mp hi
      rw [byteOf_zero, Word.wrap_of_lt (by omega)]
    simp only [execute, Machine.get, Machine.set, Machine.next, hbytes, hwrap,
      storeWord_zero memory ha.le]
    rfl
  refine .line rfl rfl ?_
  refine .line rfl hcmp ?_
  refine .line rfl rfl ?_
  refine .line rfl hstr ?_
  refine .line rfl rfl (.refl _)

/-- The loop ends after as many turns as there are words. -/
theorem zero_loop {a stop : Nat} (zero : Bool) (stack : List Nat) (memory : Nat → UInt8)
    (trace : List Event) (n : Nat) (hstop : stop = a + 4 * n) (hlt : stop < 2 ^ 32) :
    Reaches e ⟨a, stop, 0, zero, stack, memory, 3, trace⟩
      ⟨stop, stop, 0, true, stack, zeroBytes memory a (4 * n), 8, trace ++ zeroed a (4 * n)⟩ := by
  induction n generalizing a zero memory trace with
  | zero =>
    obtain rfl : stop = a := by omega
    have hcmp : execute e startCode ⟨stop, stop, 0, zero, stack, memory, 4, trace⟩ (.cmp .r0 .r1) =
        some ⟨stop, stop, 0, true, stack, memory, 5, trace⟩ := by
      simp [execute, Machine.get, Machine.next]
    rw [Nat.mul_zero, zeroBytes_zero, zeroed_zero, List.append_nil]
    refine .line rfl rfl ?_
    refine .line rfl hcmp ?_
    refine .line rfl rfl ?_
    refine .line rfl rfl ?_
    exact .line rfl rfl (.refl _)
  | succ n ih =>
    have hrest := ih false (zeroBytes memory a 4) (trace ++ zeroed a 4)
      (by omega : stop = a + 4 + 4 * n)
    rw [zeroBytes_append, List.append_assoc, ← zeroed_append, Nat.add_comm 4, ← Nat.mul_succ]
      at hrest
    exact (zero_turn zero stack memory trace (by omega) (by omega)).trans hrest

/-- The loop while it goes past the end. -/
structure Overruns (stop : Nat) (m : Machine) : Prop where
  pc : m.pc ∈ [3, 4, 5, 6, 7]
  stop : m.r1 = stop
  word : m.r0 % 4 = 0
  unequal : m.pc ∈ [5, 6, 7] → m.zero = false

theorem Overruns.step {stop : Nat} (h : Overruns stop m) (hstop : stop % 4 ≠ 0) :
    ∃ m', step e startCode m = some m' ∧ Overruns stop m' := by
  obtain ⟨r0, r1, r2, zero, stack, memory, pc, trace⟩ := m
  obtain ⟨hpc, hr1, hword, hzero⟩ := h
  simp only [List.mem_cons, List.not_mem_nil, or_false] at hpc hzero hr1 hword
  have hne : (r0 == r1) = false := by
    rw [beq_eq_false_iff_ne]
    rintro rfl
    exact hstop (hr1 ▸ hword)
  obtain rfl | rfl | rfl | rfl | rfl := hpc
  · exact ⟨_, rfl, (by decide : 4 ∈ [3, 4, 5, 6, 7]), hr1, hword,
      fun h => absurd h (by decide : 4 ∉ [5, 6, 7])⟩
  · exact ⟨_, rfl, (by decide : 5 ∈ [3, 4, 5, 6, 7]), hr1, hword, fun _ => hne⟩
  · exact ⟨_, rfl, (by decide : 6 ∈ [3, 4, 5, 6, 7]), hr1, hword, fun _ => hzero (.inl rfl)⟩
  · obtain rfl := hzero (.inr (.inl rfl))
    refine ⟨_, rfl, (by decide : 7 ∈ [3, 4, 5, 6, 7]), hr1, ?_, fun _ => rfl⟩
    change wrap (r0 + 4) % 4 = 0
    rw [wrap]
    omega
  · obtain rfl := hzero (.inr (.inr rfl))
    exact ⟨_, rfl, (by decide : 3 ∈ [3, 4, 5, 6, 7]), hr1, hword,
      fun h => absurd h (by decide : 3 ∉ [5, 6, 7])⟩

theorem Overruns.run {stop : Nat} (h : Overruns stop m) (hstop : stop % 4 ≠ 0) (n : Nat) :
    ∃ m', run e startCode n m = some m' ∧ Overruns stop m' := by
  induction n generalizing m with
  | zero => exact ⟨m, rfl, h⟩
  | succ n ih =>
    obtain ⟨m₁, hstep, h₁⟩ := h.step hstop
    obtain ⟨m', hrun, h'⟩ := ih h₁
    refine ⟨m', ?_, h'⟩
    rw [WagtailStart.run, hstep, Option.bind_some, hrun]

/-- With a .bss section that is not a number of words, the start code does not get beyond
zeroing. -/
theorem start_overruns (app : Application) (function : Nat → Machine → Option Returned)
    (hbss : app.bssSize % 4 ≠ 0) (r0 r1 r2 : Nat) (zero : Bool) (stack : List Nat)
    (memory : Nat → UInt8) (n : Nat) :
    ∃ m, run (app.environment function) startCode n (entry r0 r1 r2 zero stack memory) = some m ∧
      m.pc < 8 := by
  have hstart : app.bssStart % 4 = 0 := by
    rw [Application.bssStart, alignUp]
    omega
  have hstop : app.applicationEnd % 4 ≠ 0 := by
    rw [Application.applicationEnd]
    omega
  have hloop : Overruns app.applicationEnd
      ⟨app.bssStart, app.applicationEnd, r2 ^^^ r2, r2 ^^^ r2 == 0, stack, memory, 3, []⟩ :=
    ⟨(by decide : 3 ∈ [3, 4, 5, 6, 7]), rfl, hstart,
      fun h => absurd h (by decide : 3 ∉ [5, 6, 7])⟩
  match n with
  | 0 => exact ⟨_, rfl, (by decide : 0 < 8)⟩
  | 1 => exact ⟨_, rfl, (by decide : 1 < 8)⟩
  | 2 => exact ⟨_, rfl, (by decide : 2 < 8)⟩
  | n + 3 =>
    obtain ⟨m, hrun, hm⟩ := hloop.run hstop (e := app.environment function) n
    have hbound : ∀ pc ∈ [3, 4, 5, 6, 7], pc < 8 := by decide
    exact ⟨m, hrun, hbound _ hm.pc⟩

/-! ### Tables of functions -/

/-- The lines of a loop over a table, and the one behind it. -/
structure TableLoop (start stop : Nat) : Prop where
  head : startCode[start]? = some (.label 1)
  cmp : startCode[start + 1]? = some (.cmp .r0 .r1)
  beq : startCode[start + 2]? = some (.beq (.forward 2))
  ldr : startCode[start + 3]? = some (.ldr .r2 .r0)
  push : startCode[start + 4]? = some (.push [.r0, .r1])
  blx : startCode[start + 5]? = some (.blx .r2)
  pop : startCode[start + 6]? = some (.pop [.r0, .r1])
  adds : startCode[start + 7]? = some (.adds .r0 4)
  b : startCode[start + 8]? = some (.b (.back 1))
  leave : resolve startCode (start + 2) (.forward 2) = some stop
  again : resolve startCode (start + 8) (.back 1) = some start

theorem constructors_loop : TableLoop 10 19 := by
  constructor <;> rfl

/-- Behind the destructors control goes on with waiting. -/
theorem destructors_loop : TableLoop 26 37 := by
  constructor <;> rfl

/-- The words of a table are in memory. -/
def TableAt (memory : Nat → UInt8) (start : Nat) : List Nat → Prop
  | [] => True
  | function :: table => loadWord memory start = function ∧ TableAt memory (start + 4) table

/-- Functions return, and leave memory below this address as it is. -/
def Keeps (e : Environment) (limit : Nat) (functions : List Nat) : Prop :=
  ∀ function ∈ functions, ∀ m, ∃ returned, e.function function m = some returned ∧
    ∀ x < limit, returned.memory x = m.memory x

theorem loadWord_congr {memory memory' : Nat → UInt8} {a limit : Nat} (ha : a + 4 ≤ limit)
    (hlimit : limit ≤ 2 ^ 32) (h : ∀ x < limit, memory' x = memory x) :
    loadWord memory' a = loadWord memory a := by
  have hbyte : ∀ i < 4, memory' (wrap (a + i)) = memory (wrap (a + i)) := fun i hi => by
    rw [Word.wrap_of_lt (by omega)]
    exact h _ (by omega)
  simp only [loadWord, List.range, List.range.loop, List.foldr_cons, List.foldr_nil,
    hbyte 0 (by decide), hbyte 1 (by decide), hbyte 2 (by decide), hbyte 3 (by decide)]

theorem TableAt.congr {memory memory' : Nat → UInt8} {a limit : Nat} {table : List Nat}
    (h : TableAt memory a table) (ha : a + 4 * table.length ≤ limit) (hlimit : limit ≤ 2 ^ 32)
    (hsame : ∀ x < limit, memory' x = memory x) : TableAt memory' a table := by
  induction table generalizing a with
  | nil => trivial
  | cons function table ih =>
    rw [List.length_cons] at ha
    exact ⟨(loadWord_congr (by omega) hlimit hsame).trans h.1, ih h.2 (by omega)⟩

/-- One entry of a table. -/
theorem table_turn {start stop a last function : Nat} (hloop : TableLoop start stop) (r2 : Nat)
    (zero : Bool) (stack : List Nat) {memory : Nat → UInt8} (trace : List Event)
    (hne : a ≠ last) (ha : a + 4 < 2 ^ 32) (hentry : loadWord memory a = function)
    {limit : Nat} (hkeeps : Keeps e limit [function]) :
    ∃ r2' zero' memory' value,
      Reaches e ⟨a, last, r2, zero, stack, memory, start, trace⟩
        ⟨a + 4, last, r2', zero', stack, memory', start, trace ++ [.called function value]⟩ ∧
      ∀ x < limit, memory' x = memory x := by
  obtain ⟨returned, hreturned, hmemory⟩ := hkeeps function (by simp)
    ⟨a, last, function, false, a :: last :: stack, memory, start + 5, trace⟩
  refine ⟨returned.r2, a + 4 == 0, returned.memory, returned.r0, ?_, hmemory⟩
  have hcmp : execute e startCode ⟨a, last, r2, zero, stack, memory, start + 1, trace⟩
      (.cmp .r0 .r1) = some ⟨a, last, r2, false, stack, memory, start + 2, trace⟩ := by
    simp [execute, Machine.get, Machine.next, hne]
  have hldr : execute e startCode ⟨a, last, r2, false, stack, memory, start + 3, trace⟩
      (.ldr .r2 .r0) = some ⟨a, last, function, false, stack, memory, start + 4, trace⟩ := by
    simp [execute, Machine.get, Machine.set, Machine.next, hentry]
  have hblx : execute e startCode
      ⟨a, last, function, false, a :: last :: stack, memory, start + 5, trace⟩ (.blx .r2) =
      some ⟨returned.r0, returned.r1, returned.r2, returned.zero, a :: last :: stack,
        returned.memory, start + 6, trace ++ [.called function returned.r0]⟩ := by
    simp [execute, Machine.get, Machine.call, hreturned]
  have hadds : execute e startCode ⟨a, last, returned.r2, returned.zero, stack, returned.memory,
      start + 7, trace ++ [.called function returned.r0]⟩ (.adds .r0 4) =
      some ⟨a + 4, last, returned.r2, a + 4 == 0, stack, returned.memory, start + 8,
        trace ++ [.called function returned.r0]⟩ := by
    simp [execute, Machine.get, Machine.set, Machine.next, Word.wrap_of_lt ha]
  have hb : execute e startCode ⟨a + 4, last, returned.r2, a + 4 == 0, stack, returned.memory,
      start + 8, trace ++ [.called function returned.r0]⟩ (.b (.back 1)) =
      some ⟨a + 4, last, returned.r2, a + 4 == 0, stack, returned.memory, start,
        trace ++ [.called function returned.r0]⟩ := by
    simp [execute, Machine.jump, hloop.again]
  refine .line hloop.head rfl ?_
  refine .line hloop.cmp hcmp ?_
  refine .line hloop.beq rfl ?_
  refine .line hloop.ldr hldr ?_
  refine .line hloop.push rfl ?_
  refine .line hloop.blx hblx ?_
  refine .line hloop.pop rfl ?_
  refine .line hloop.adds hadds ?_
  exact .line hloop.b hb (.refl _)

/-- The loop calls every function of the table, in order. -/
theorem table_loop {start stop last : Nat} (hloop : TableLoop start stop) {table : List Nat}
    {limit : Nat} (hlimit : limit < 2 ^ 32) (hlast : last ≤ limit)
    (hkeeps : Keeps e limit table) {a : Nat} (r2 : Nat) (zero : Bool) (stack : List Nat)
    {memory : Nat → UInt8} (trace : List Event) (ha : a + 4 * table.length = last)
    (htable : TableAt memory a table) :
    ∃ r2' memory' called,
      Reaches e ⟨a, last, r2, zero, stack, memory, start, trace⟩
        ⟨last, last, r2', true, stack, memory', stop, trace ++ called⟩ ∧
      called.map Event.function = table.map some ∧ ∀ x < limit, memory' x = memory x := by
  induction table generalizing a r2 zero memory trace with
  | nil =>
    obtain rfl : a = last := by simpa using ha
    refine ⟨r2, memory, [], ?_, rfl, fun _ _ => rfl⟩
    have hcmp : execute e startCode ⟨a, a, r2, zero, stack, memory, start + 1, trace⟩
        (.cmp .r0 .r1) = some ⟨a, a, r2, true, stack, memory, start + 2, trace⟩ := by
      simp [execute, Machine.get, Machine.next]
    have hbeq : execute e startCode ⟨a, a, r2, true, stack, memory, start + 2, trace⟩
        (.beq (.forward 2)) = some ⟨a, a, r2, true, stack, memory, stop, trace⟩ := by
      simp [execute, Machine.jump, hloop.leave]
    rw [List.append_nil]
    refine .line hloop.head rfl ?_
    refine .line hloop.cmp hcmp ?_
    exact .line hloop.beq hbeq (.refl _)
  | cons function table ih =>
    rw [List.length_cons] at ha
    have hone : Keeps e limit [function] := fun f hf => hkeeps f (by simp_all)
    have hrest : Keeps e limit table := fun f hf => hkeeps f (List.mem_cons_of_mem _ hf)
    obtain ⟨r2₁, zero₁, memory₁, value, hturn, hsame⟩ :=
      table_turn hloop r2 zero stack trace (by omega : a ≠ last) (by omega) htable.1 hone
    have htable₁ : TableAt memory₁ (a + 4) table :=
      htable.2.congr (by omega) hlimit.le hsame
    obtain ⟨r2', memory', called, hloop', hcalled, hsame'⟩ :=
      ih hrest r2₁ zero₁ (trace ++ [.called function value]) (by omega) htable₁
    refine ⟨r2', memory', .called function value :: called, ?_, ?_, fun x hx => ?_⟩
    · rw [← List.singleton_append, ← List.append_assoc]
      exact hturn.trans hloop'
    · rw [List.map_cons, List.map_cons, hcalled]
      rfl
    · rw [hsame' x hx, hsame x hx]

/-! ### Waiting -/

/-- The last three lines are a loop in which nothing happens. -/
theorem waits (hpc : m.pc ∈ [37, 38, 39]) (n : Nat) :
    ∃ m', run e startCode n m = some m' ∧ m'.trace = m.trace := by
  induction n generalizing m with
  | zero => exact ⟨m, rfl, rfl⟩
  | succ n ih =>
    obtain ⟨m₁, hstep, htrace, hpc₁⟩ : ∃ m₁, step e startCode m = some m₁ ∧
        m₁.trace = m.trace ∧ m₁.pc ∈ [37, 38, 39] := by
      obtain ⟨r0, r1, r2, zero, stack, memory, pc, trace⟩ := m
      simp only [List.mem_cons, List.not_mem_nil, or_false] at hpc
      obtain rfl | rfl | rfl := hpc
      · exact ⟨_, rfl, rfl, (by decide : 38 ∈ [37, 38, 39])⟩
      · exact ⟨_, rfl, rfl, (by decide : 39 ∈ [37, 38, 39])⟩
      · exact ⟨_, rfl, rfl, (by decide : 37 ∈ [37, 38, 39])⟩
    obtain ⟨m', hrun, htrace'⟩ := ih hpc₁
    refine ⟨m', ?_, htrace'.trans htrace⟩
    rw [run, hstep, Option.bind_some, hrun]

/-! ### Aligned applications -/

/-- The application ends inside the address space, its tables follow the text without a gap, and
its .bss section is a number of words. -/
structure Application.Aligned (app : Application) : Prop where
  text : app.textSize % 4 = 0
  bss : app.bssSize % 4 = 0
  fits : app.applicationEnd < 2 ^ 32

theorem alignUp_le {n a : Nat} (ha : 0 < a) : n ≤ alignUp n a := by
  have hlt := Nat.lt_div_mul_add (a := n + a - 1) ha
  rw [alignUp]
  omega

theorem tableEnd_eq {start : Nat} (h : start % 4 = 0) (table : List Nat) :
    tableEnd start table = start + 4 * table.length := by
  have hup : alignUp start 4 = start := by
    rw [alignUp]
    omega
  rw [tableEnd]
  split
  next hnil => simp [hnil]
  next => rw [hup]

theorem Application.Aligned.destructorsStart {app : Application} (h : app.Aligned) :
    app.constructorsStart + 4 * app.constructors.length = app.destructorsStart := by
  have htext := h.text
  rw [Application.destructorsStart, tableEnd_eq]
  rw [Application.constructorsStart]
  omega

theorem Application.Aligned.destructorsEnd {app : Application} (h : app.Aligned) :
    app.destructorsStart + 4 * app.destructors.length = app.destructorsEnd := by
  have htext := h.text
  have hstart := h.destructorsStart
  rw [Application.destructorsEnd, tableEnd_eq]
  rw [← hstart, Application.constructorsStart]
  omega

theorem Application.destructorsEnd_le (app : Application) : app.destructorsEnd ≤ app.bssStart := by
  have hdata : app.destructorsEnd ≤ app.dataStart := alignUp_le (by decide)
  have hbss : app.dataStart + app.dataSize ≤ app.bssStart := alignUp_le (by decide)
  omega

theorem Application.Aligned.limit {app : Application} (h : app.Aligned) :
    app.destructorsEnd < 2 ^ 32 := by
  have hle := app.destructorsEnd_le
  have hfits := h.fits
  rw [Application.applicationEnd] at hfits
  omega

variable {app : Application} {function : Nat → Machine → Option Returned}

/-- From the entry to the constructors. -/
theorem Application.Aligned.zeroes (h : app.Aligned) (r0 r1 r2 : Nat) (zero : Bool)
    (stack : List Nat) (memory : Nat → UInt8) :
    Reaches (app.environment function) (entry r0 r1 r2 zero stack memory)
      ⟨app.constructorsStart, app.destructorsStart, 0, true, stack,
        zeroBytes memory app.bssStart app.bssSize, 10, zeroed app.bssStart app.bssSize⟩ := by
  have hbss := h.bss
  have hwords : 4 * (app.bssSize / 4) = app.bssSize := by omega
  have hstop : app.applicationEnd = app.bssStart + 4 * (app.bssSize / 4) := by
    rw [hwords, Application.applicationEnd]
  have hzero := zero_loop (e := app.environment function) true stack memory [] _ hstop h.fits
  rw [hwords, List.nil_append] at hzero
  have heors : execute (app.environment function) startCode
      ⟨app.bssStart, app.applicationEnd, r2, zero, stack, memory, 2, []⟩ (.eors .r2 .r2) =
      some ⟨app.bssStart, app.applicationEnd, 0, true, stack, memory, 3, []⟩ := by
    simp [execute, Machine.get, Machine.set, Machine.next]
  refine .line rfl rfl ?_
  refine .line rfl rfl ?_
  refine .line rfl heors ?_
  refine hzero.trans ?_
  refine .line rfl rfl ?_
  exact .line rfl rfl (.refl _)

/-- From the end of the constructors to the destructors. -/
theorem main_reaches (last r2 : Nat) (stack : List Nat) (memory : Nat → UInt8)
    (trace : List Event) {returned : Returned}
    (h : function app.main ⟨0, 0, r2, true, stack, memory, 22, trace⟩ = some returned) :
    Reaches (app.environment function) ⟨last, last, r2, true, stack, memory, 19, trace⟩
      ⟨app.destructorsStart, app.destructorsEnd, returned.r2, returned.zero, returned.r0 :: stack,
        returned.memory, 26, trace ++ [.called app.main returned.r0]⟩ := by
  have hmain : execute (app.environment function) startCode
      ⟨0, 0, r2, true, stack, memory, 22, trace⟩ (.bl .main) =
      some ⟨returned.r0, returned.r1, returned.r2, returned.zero, stack, returned.memory, 23,
        trace ++ [.called app.main returned.r0]⟩ := by
    have hcalled : (app.environment function).function ((app.environment function).symbol .main)
        ⟨0, 0, r2, true, stack, memory, 22, trace⟩ = some returned := h
    rw [execute, Machine.call, hcalled]
    rfl
  refine .line rfl rfl ?_
  refine .line rfl rfl ?_
  refine .line rfl rfl ?_
  refine .line rfl hmain ?_
  refine .line rfl rfl ?_
  refine .line rfl rfl ?_
  exact .line rfl rfl (.refl _)

/-- The start code of an aligned application sets the .bss section to zero, calls the constructors,
`main` and the destructors, and then waits, with what `main` returned on the stack. -/
theorem start_waits (h : app.Aligned)
    (hkeeps : Keeps (app.environment function) app.destructorsEnd
      (app.constructors ++ app.main :: app.destructors))
    (r0 r1 r2 : Nat) (zero : Bool) (stack : List Nat) {memory : Nat → UInt8}
    (hconstructors : TableAt memory app.constructorsStart app.constructors)
    (hdestructors : TableAt memory app.destructorsStart app.destructors) :
    ∃ m constructed value destroyed,
      Reaches (app.environment function) (entry r0 r1 r2 zero stack memory) m ∧
      m.trace = zeroed app.bssStart app.bssSize ++ constructed ++ [.called app.main value] ++
        destroyed ∧
      constructed.map Event.function = app.constructors.map some ∧
      destroyed.map Event.function = app.destructors.map some ∧
      m.stack = value :: stack ∧
      ∀ n, ∃ m', run (app.environment function) startCode n m = some m' ∧ m'.trace = m.trace := by
  have hend := h.destructorsEnd
  have hbound : app.constructorsStart + 4 * app.constructors.length ≤ app.destructorsEnd := by
    rw [h.destructorsStart]
    omega
  -- The .bss section lies behind the tables.
  have hzeroed : ∀ x < app.destructorsEnd,
      zeroBytes memory app.bssStart app.bssSize x = memory x := fun x hx => by
    have hle := app.destructorsEnd_le
    exact if_neg (by omega)
  obtain ⟨r2₁, memory₁, constructed, hloop₁, hconstructed, hsame₁⟩ :=
    table_loop constructors_loop h.limit (by omega) (fun f hf => hkeeps f (by simp [hf])) 0 true
      stack (zeroed app.bssStart app.bssSize) h.destructorsStart
      (hconstructors.congr hbound h.limit.le hzeroed)
  obtain ⟨returned, hreturned, hsame₂⟩ := hkeeps app.main (by simp)
    ⟨0, 0, r2₁, true, stack, memory₁, 22, zeroed app.bssStart app.bssSize ++ constructed⟩
  have hsame : ∀ x < app.destructorsEnd, returned.memory x = memory x := fun x hx => by
    rw [hsame₂ x hx]
    exact (hsame₁ x hx).trans (hzeroed x hx)
  obtain ⟨r2₃, memory₃, destroyed, hloop₃, hdestroyed, -⟩ :=
    table_loop destructors_loop h.limit le_rfl (fun f hf => hkeeps f (by simp [hf])) returned.r2
      returned.zero (returned.r0 :: stack)
      (zeroed app.bssStart app.bssSize ++ constructed ++ [.called app.main returned.r0])
      hend (hdestructors.congr hend.le h.limit.le hsame)
  have hreach : Reaches (app.environment function) (entry r0 r1 r2 zero stack memory) _ :=
    ((h.zeroes r0 r1 r2 zero stack memory).trans hloop₁).trans
      ((main_reaches _ r2₁ stack memory₁ _ hreturned).trans hloop₃)
  exact ⟨_, constructed, returned.r0, destroyed, hreach, rfl, hconstructed, hdestroyed, rfl,
    waits (by decide : 37 ∈ [37, 38, 39])⟩

end WagtailStart
