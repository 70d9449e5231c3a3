import Wagtail.Boot
import Wagtail.HeapCalls
import Wagtail.Library.Runs

/-!
# The page tables of the kernel at boot

Every page table that the kernel's mappings need is put on the next kilobyte
behind the last one, with the node of the directory behind it. So the end of
the kernel's data is known from the number of tables, and that from the
megabytes in which something is mapped.
-/
namespace WagtailBoot

open Word (wrap wrap_of_lt)
open WagtailHeap (allocate maskLeft maskLeft_two_pow align_up rounded round_size)
open WagtailMmu

variable {translate : Nat → Nat} {s t : Boot} {l : Layout} {n size k virt page last dataStart : Nat}
  {permissions : Permissions} {type : IntervalType} {others : List Nat} {trace : List Event}

/-! ## Handing out -/

/-- The next address with this alignment. -/
def alignUp (p k : Nat) : Nat := (p + 2 ^ k - 1) / 2 ^ k * 2 ^ k

theorem alignUp_of_mod {p : Nat} (h : p % 2 ^ k = 0) : alignUp p k = p := by
  have hpos := Nat.two_pow_pos k
  obtain ⟨q, rfl⟩ := Nat.dvd_of_mod_eq_zero h
  have hdiv : (2 ^ k * q + 2 ^ k - 1) / 2 ^ k = q := by
    rw [Nat.add_sub_assoc (by omega), Nat.mul_add_div hpos, Nat.div_eq_of_lt (by omega),
      Nat.add_zero]
  rw [alignUp, hdiv, Nat.mul_comm]

/-- An allocation before the heap is ready moves the end of the kernel's data. -/
theorem allocate_bump {m : WagtailHeap.Mm} (hm : m.initializationCompleted = false)
    (hsize : 0 < size) (hk : k < 32) (hsum : m.kernelDataEnd + 2 ^ k + rounded size ≤ 2 ^ 32)
    (hmax : size ≤ 0xfffffffc) :
    allocate m size (2 ^ k) = some (alignUp m.kernelDataEnd k,
      { m with kernelDataEnd := alignUp m.kernelDataEnd k + rounded size }) := by
  have hpos := Nat.two_pow_pos k
  have hlt : 2 ^ k < 2 ^ 32 := Nat.pow_lt_pow_right (by decide) hk
  have hlow : m.kernelDataEnd &&& Word.not (maskLeft (2 ^ k)) = m.kernelDataEnd % 2 ^ k := by
    have hnot : Word.not (maskLeft (2 ^ k)) = 2 ^ k - 1 := by
      rw [maskLeft_two_pow hk, Word.not]
      omega
    rw [hnot, Nat.and_two_pow_sub_one_eq_mod]
  have haddress : (if m.kernelDataEnd &&& Word.not (maskLeft (2 ^ k)) ≠ 0 then
      wrap (m.kernelDataEnd + Word.sub (2 ^ k) 1) &&& maskLeft (2 ^ k) else m.kernelDataEnd) =
      alignUp m.kernelDataEnd k := by
    rw [hlow]
    by_cases hmod : m.kernelDataEnd % 2 ^ k = 0
    · rw [if_neg (not_not_intro hmod), alignUp_of_mod hmod]
    · have hrounded : 0 < rounded size := by
        simp only [rounded]
        omega
      rw [if_pos hmod, align_up hk (by omega), alignUp]
  have hle : alignUp m.kernelDataEnd k ≤ m.kernelDataEnd + 2 ^ k - 1 := Nat.div_mul_le_self _ _
  simp only [allocate, if_neg (Nat.pos_iff_ne_zero.mp hsize), hm, Bool.not_false, if_true,
    round_size hmax, haddress]
  have hrounded : 0 < rounded size := by
    simp only [rounded]
    omega
  rw [wrap_of_lt (by omega)]

theorem new_spec (size k : Nat) (hs : s.mm.initializationCompleted = false) (hsize : 0 < size)
    (hk : k < 32) (hsum : s.mm.kernelDataEnd + 2 ^ k + rounded size ≤ 2 ^ 32)
    (hmax : size ≤ 0xfffffffc) : s.new size (2 ^ k) = some (alignUp s.mm.kernelDataEnd k,
      { s with
        mm := { s.mm with kernelDataEnd := alignUp s.mm.kernelDataEnd k + rounded size }
        trace := s.trace ++ [.allocated (alignUp s.mm.kernelDataEnd k)
          (alignUp s.mm.kernelDataEnd k + rounded size)] }) := by
  rw [Boot.new, allocate_bump hs hsize hk hsum hmax]
  rfl

/-! ## What is mapped, and what is handed out -/

theorem mappedEnd_append (e : Event) : mappedEnd dataStart (trace ++ [e]) =
    match e with
    | .mapped virt _ _ .data =>
      if virt = mappedEnd dataStart trace then mappedEnd dataStart trace + 4096
      else mappedEnd dataStart trace
    | _ => mappedEnd dataStart trace := by
  rw [mappedEnd, List.foldl_append]
  rfl

theorem mappedEnd_data (h : mappedEnd dataStart trace = virt) :
    mappedEnd dataStart (trace ++ [.mapped virt page permissions .data]) = virt + 4096 := by
  simp [mappedEnd_append, h]

theorem mappedEnd_other (h : type ≠ .data) :
    mappedEnd dataStart (trace ++ [.mapped virt page permissions type]) =
      mappedEnd dataStart trace := by
  cases type <;> simp_all [mappedEnd_append]

@[simp] theorem mappedEnd_allocated {first : Nat} :
    mappedEnd dataStart (trace ++ [.allocated first last]) = mappedEnd dataStart trace := by
  simp [mappedEnd_append]

/-- One more event, which may hand something out. -/
theorem handsOut_append (e : Event) : HandsOutMapped dataStart (trace ++ [e]) ↔
    HandsOutMapped dataStart trace ∧ ∀ first last, e = .allocated first last →
      .mmuEnabled ∈ trace → ∀ address, first ≤ address → address < last →
        address < mappedEnd dataStart trace := by
  constructor
  · intro h
    refine ⟨fun before first last after hsplit => ?_, fun first last he => ?_⟩
    · refine h before first last (after ++ [e]) ?_
      rw [hsplit, List.append_assoc, List.cons_append]
    · exact h trace first last [] (he ▸ rfl)
  · rintro ⟨htrace, he⟩ before first last after hsplit
    obtain rfl | ⟨after, x, rfl⟩ := List.eq_nil_or_concat' after
    · obtain ⟨rfl, hlast⟩ := List.append_inj' hsplit rfl
      exact he first last (List.singleton_inj.mp hlast)
    · rw [← List.cons_append, ← List.append_assoc] at hsplit
      obtain ⟨hsame, -⟩ := List.append_inj' hsplit rfl
      exact htrace before first last after hsame

theorem handsOut_disabled (h : .mmuEnabled ∉ trace) : HandsOutMapped dataStart trace := by
  intro before first last after hsplit henabled
  exact absurd (hsplit ▸ List.mem_append_left _ henabled) h

theorem handsOut_mapped :
    HandsOutMapped dataStart (trace ++ [.mapped virt page permissions type]) ↔
      HandsOutMapped dataStart trace := by
  rw [handsOut_append]
  simp

theorem handsOut_allocated {first : Nat} (h : first < last) :
    HandsOutMapped dataStart (trace ++ [.allocated first last]) ↔ HandsOutMapped dataStart trace ∧
      (.mmuEnabled ∈ trace → last ≤ mappedEnd dataStart trace) := by
  rw [handsOut_append]
  refine and_congr_right fun _ => ⟨fun hall henabled => ?_, ?_⟩
  · have hend := hall first last rfl henabled (last - 1) (by omega) (by omega)
    omega
  · rintro hle first' last' he henabled address - hlt
    obtain ⟨-, rfl⟩ := Event.allocated.inj he
    exact Nat.lt_of_lt_of_le hlt (hle henabled)

/-! ## A page of the kernel -/

/-- Where the page table after `n` others is put. -/
def Layout.place (l : Layout) (n : Nat) : Nat := alignUp l.bssEnd 10 + 2048 * n

/-- The end of the kernel's data with `n` page tables: the node for a table is behind it. -/
def Layout.bump (l : Layout) : Nat → Nat
  | 0 => l.bssEnd
  | n + 1 => l.place n + 1048

theorem alignUp_bump : alignUp (l.bump n) 10 = l.place n := by
  cases n with
  | zero => simp [Layout.bump, Layout.place]
  | succ n =>
    simp only [Layout.bump, Layout.place, alignUp]
    omega

theorem bump_le : l.bump n ≤ l.place n := by
  rw [← alignUp_bump, alignUp]
  omega

/-- The megabyte has a page table. -/
def Boot.HasTable (s : Boot) (i : Nat) : Prop :=
  ∃ h : i < 4096, s.kernelTable.table ⟨i, h⟩ &&& L1.typePageTable ≠ 0

/-- What a mapping leaves as it was. -/
structure Frame (s t : Boot) : Prop where
  completed : t.mm.initializationCompleted = s.mm.initializationCompleted
  dataspaceEnd : t.mm.kernelDataspaceEnd = s.mm.kernelDataspaceEnd
  nextDeviceAddr : t.nextDeviceAddr = s.nextDeviceAddr
  enabled : .mmuEnabled ∈ t.trace ↔ .mmuEnabled ∈ s.trace

theorem Frame.refl (s : Boot) : Frame s s := ⟨rfl, rfl, rfl, Iff.rfl⟩

theorem Frame.trans {u : Boot} (h : Frame s t) (h' : Frame t u) : Frame s u :=
  ⟨h'.completed.trans h.completed, h'.dataspaceEnd.trans h.dataspaceEnd,
    h'.nextDeviceAddr.trans h.nextDeviceAddr, h'.enabled.trans h.enabled⟩

/-- The two allocations for a page table. -/
theorem new_table (hs : s.mm.initializationCompleted = false) (hend : s.mm.kernelDataEnd = l.bump n)
    (hroom : l.place n + 4096 ≤ 2 ^ 32) : ∃ t, s.new 1024 1024 = some (l.place n, t) ∧
      t.new sizeofNode 4 = some (l.place n + 1024, { s with
        mm := { s.mm with kernelDataEnd := l.bump (n + 1) }
        trace := s.trace ++ [.allocated (l.place n) (l.place n + 1024)] ++
          [.allocated (l.place n + 1024) (l.bump (n + 1))] }) := by
  have hle := bump_le (l := l) (n := n)
  have haligned : l.place n % 4 = 0 := by
    simp only [Layout.place, alignUp]
    omega
  have hsize : rounded 1024 = 1024 := by decide
  have hlast : l.place n + 1024 + rounded sizeofNode = l.bump (n + 1) := by
    simp [Layout.bump, rounded, sizeofNode]
  have htable := new_spec 1024 10 hs (by decide) (by decide)
    (by rw [hend, hsize]; omega) (by decide)
  rw [hend, alignUp_bump, hsize] at htable
  refine ⟨_, htable, ?_⟩
  have hnode := new_spec (s := { s with
    mm := { s.mm with kernelDataEnd := l.place n + 1024 }
    trace := s.trace ++ [.allocated (l.place n) (l.place n + 1024)] }) sizeofNode 2
    hs (by decide) (by decide) (by simp only [rounded, sizeofNode]; omega) (by decide)
  rw [alignUp_of_mod (p := l.place n + 1024) (k := 2) (by omega), hlast] at hnode
  exact hnode

theorem or_pageTable_and (x : Nat) : (x ||| L1.typePageTable) &&& L1.typePageTable ≠ 0 := by
  have hself : L1.typePageTable &&& L1.typePageTable = 1 := by decide
  rw [Nat.and_or_distrib_right, hself]
  intro hzero
  have hbit := congrArg (Nat.testBit · 0) hzero
  simp at hbit

/-- Mapping a page takes a page table if its megabyte has none. -/
theorem mapPage_spec (translate : Nat → Nat) (page dataStart : Nat) (permissions : Permissions)
    (type : IntervalType) (hs : s.mm.initializationCompleted = false)
    (hend : s.mm.kernelDataEnd = l.bump n) (hroom : l.place n + 4096 ≤ 2 ^ 32)
    (hvirt : virt < 2 ^ 32) :
    ∃ t, mapPage translate s page virt permissions type = some t ∧ Frame s t ∧
      (∀ i, t.HasTable i ↔ s.HasTable i ∨ i = virt / 0x100000) ∧
      (s.HasTable (virt / 0x100000) → t.mm.kernelDataEnd = l.bump n) ∧
      (¬ s.HasTable (virt / 0x100000) → t.mm.kernelDataEnd = l.bump (n + 1)) ∧
      mappedEnd dataStart t.trace =
        mappedEnd dataStart (s.trace ++ [.mapped virt page permissions type]) ∧
      (HandsOutMapped dataStart t.trace ↔ HandsOutMapped dataStart s.trace ∧
        (.mmuEnabled ∈ s.trace → ¬ s.HasTable (virt / 0x100000) →
          l.bump (n + 1) ≤ mappedEnd dataStart s.trace)) := by
  have hindex : virt >>> 20 = virt / 0x100000 := Nat.shiftRight_eq_div_pow virt 20
  have hlt : virt >>> 20 < 4096 := by omega
  rw [mapPage, dif_pos hlt, ← hindex]
  by_cases htable : s.kernelTable.table ⟨virt >>> 20, hlt⟩ &&& L1.typePageTable ≠ 0
  · have hhas : s.HasTable (virt >>> 20) := ⟨hlt, htable⟩
    simp only [if_pos htable, Option.bind_eq_bind, Option.bind_some]
    refine ⟨_, rfl, ⟨rfl, rfl, rfl, by simp [Boot.record]⟩, fun i => ?_, fun _ => hend,
      fun hnot => absurd hhas hnot, rfl, ?_⟩
    · exact ⟨.inl, fun h => h.elim id fun he => he ▸ hhas⟩
    · rw [Boot.record, handsOut_mapped]
      exact (and_iff_left fun _ hnot => absurd hhas hnot).symm
  · have hhas : ¬ s.HasTable (virt >>> 20) := fun ⟨_, h⟩ => htable h
    obtain ⟨t, hpt, hnode⟩ := new_table hs hend hroom
    simp only [if_neg htable, hpt, hnode, Option.bind_eq_bind, Option.bind_some]
    refine ⟨_, rfl, ⟨rfl, rfl, rfl, by simp [Boot.record]⟩, fun i => ?_,
      fun h => absurd h hhas, fun _ => rfl, ?_, ?_⟩
    · by_cases hi : i = virt >>> 20
      · subst hi
        refine iff_of_true ⟨hlt, ?_⟩ (.inr rfl)
        simp only [Boot.record, Function.update_self]
        exact or_pageTable_and _
      · refine Iff.trans ⟨fun ⟨h, hbit⟩ => ⟨h, ?_⟩, fun ⟨h, hbit⟩ => ⟨h, ?_⟩⟩
          (or_iff_left hi).symm
        · simpa [Boot.record, Function.update_of_ne, hi] using hbit
        · simpa [Boot.record, Function.update_of_ne, hi] using hbit
    · simp only [Boot.record, mappedEnd_append]
    · have hlast : l.place n + 1024 ≤ l.bump (n + 1) := by simp [Layout.bump]
      rw [Boot.record, handsOut_mapped, handsOut_allocated (by simp [Layout.bump]),
        handsOut_allocated (by omega), mappedEnd_allocated]
      simp only [List.mem_append, List.mem_singleton, reduceCtorEq, or_false]
      constructor
      · exact fun ⟨⟨hhands, _⟩, hbelow⟩ => ⟨hhands, fun henabled _ => hbelow henabled⟩
      · exact fun ⟨hhands, hbelow⟩ => ⟨⟨hhands, fun henabled =>
          hlast.trans (hbelow henabled hhas)⟩, fun henabled => hbelow henabled hhas⟩

/-- A loop that can fail does one more round. -/
theorem foldlM_range_succ {f : Boot → Nat → Option Boot} {u : Boot} {count : Nat}
    (h : (List.range count).foldlM f s = some t) (hlast : f t count = some u) :
    (List.range (count + 1)).foldlM f s = some u := by
  rw [List.range_succ, Runs.foldlM_snoc, h]
  exact hlast

/-! ## One page after the other -/

/-- The number of page tables, when the pages from the text up to `last` are mapped, and some in
each of the other megabytes. -/
def tablesFor (others : List Nat) (last : Nat) : Nat :=
  (last - textStart + 0xfffff) / 0x100000 + (others.filter (last ≤ · * 0x100000)).length

/-- The page at this address is the first one in a megabyte without a page table. -/
def Fresh (others : List Nat) (last : Nat) : Prop :=
  last % 0x100000 = 0 ∧ last / 0x100000 ∉ others

/-- The pages from the text up to `last` are mapped, and some in each of the other megabytes. -/
structure Maps (l : Layout) (others : List Nat) (last : Nat) (s : Boot) : Prop where
  completed : s.mm.initializationCompleted = false
  dataEnd : s.mm.kernelDataEnd = l.bump (tablesFor others last)
  hasTable : ∀ i, s.HasTable i ↔
    textStart ≤ i * 0x100000 ∧ i * 0x100000 < last ∨ i ∈ others
  mapped : mappedEnd l.dataStart s.trace = max l.dataStart last

/-- The other members are of no account. -/
theorem Maps.congr (h : Maps l others last s)
    (hcompleted : t.mm.initializationCompleted = s.mm.initializationCompleted)
    (hend : t.mm.kernelDataEnd = s.mm.kernelDataEnd) (htable : t.kernelTable = s.kernelTable)
    (htrace : t.trace = s.trace) : Maps l others last t where
  completed := hcompleted.trans h.completed
  dataEnd := hend.trans h.dataEnd
  hasTable i := by
    rw [Boot.HasTable, htable]
    exact h.hasTable i
  mapped := htrace ▸ h.mapped

theorem length_filter_step (hnodup : others.Nodup) (haligned : last % 4096 = 0) :
    (others.filter (last ≤ · * 0x100000)).length =
      (others.filter (last + 4096 ≤ · * 0x100000)).length +
        if last % 0x100000 = 0 ∧ last / 0x100000 ∈ others then 1 else 0 := by
  induction others with
  | nil => simp
  | cons i rest ih =>
    obtain ⟨hi, hrest⟩ := List.nodup_cons.mp hnodup
    have ih := ih hrest
    simp only [List.filter_cons, decide_eq_true_eq, List.mem_cons]
    by_cases hlast : i * 0x100000 = last
    · have hdiv : last / 0x100000 = i := by omega
      rw [hdiv] at ih ⊢
      rw [if_neg fun h => hi h.2] at ih
      rw [if_pos (by omega), if_neg (by omega), if_pos ⟨by omega, .inl rfl⟩, List.length_cons, ih]
    · have hne : last % 0x100000 = 0 → last / 0x100000 ≠ i := by omega
      have hsame : (last % 0x100000 = 0 ∧ (last / 0x100000 = i ∨ last / 0x100000 ∈ rest)) ↔
          last % 0x100000 = 0 ∧ last / 0x100000 ∈ rest :=
        and_congr_right fun h => or_iff_right (hne h)
      simp only [hsame]
      by_cases hle : last ≤ i * 0x100000
      · rw [if_pos hle, if_pos (by omega), List.length_cons, List.length_cons, ih]
        omega
      · rw [if_neg hle, if_neg (by omega), ih]

theorem tablesFor_step (hnodup : others.Nodup) (haligned : last % 4096 = 0)
    (htext : textStart ≤ last) :
    (Fresh others last → tablesFor others (last + 4096) = tablesFor others last + 1) ∧
      (¬ Fresh others last → tablesFor others (last + 4096) = tablesFor others last) := by
  have hfilter := length_filter_step hnodup haligned
  simp only [tablesFor, textStart, Fresh] at htext ⊢
  constructor
  · rintro ⟨hmod, hnot⟩
    rw [if_neg fun h => hnot h.2] at hfilter
    omega
  · intro hfresh
    by_cases hmod : last % 0x100000 = 0
    · rw [if_pos ⟨hmod, not_not.mp fun h => hfresh ⟨hmod, h⟩⟩] at hfilter
      omega
    · rw [if_neg fun h => hmod h.1] at hfilter
      omega

theorem place_le (hlast : last ≤ 2 ^ 32) (hothers : others.length ≤ 2) :
    l.place (tablesFor others last) + 4096 ≤ 2 ^ 32 := by
  have hfits := l.fits
  have hfilter : (others.filter (last ≤ · * 0x100000)).length ≤ others.length :=
    List.length_filter_le ..
  simp only [Layout.place, alignUp, tablesFor, textStart]
  omega

/-- The next page is mapped. -/
theorem Maps.mapPage (translate : Nat → Nat) (page : Nat) (permissions : Permissions)
    (type : IntervalType) (h : Maps l others last s) (hnodup : others.Nodup)
    (hothers : others.length ≤ 2) (haligned : last % 4096 = 0) (htext : textStart ≤ last)
    (hlast : last < 2 ^ 32)
    (htype : last < l.dataStart ∧ type ≠ .data ∨ l.dataStart ≤ last ∧ type = .data) :
    ∃ t, WagtailBoot.mapPage translate s page last permissions type = some t ∧ Frame s t ∧
      Maps l others (last + 4096) t ∧
      (HandsOutMapped l.dataStart t.trace ↔ HandsOutMapped l.dataStart s.trace ∧
        (.mmuEnabled ∈ s.trace → Fresh others last →
          l.bump (tablesFor others last + 1) ≤ max l.dataStart last)) := by
  obtain ⟨t, ht, hframe, htables, hold, hnew, hmapped, hhands⟩ := mapPage_spec translate page
    l.dataStart permissions type h.completed h.dataEnd (place_le (by omega) hothers) hlast
  obtain ⟨hstep, hstay⟩ := tablesFor_step hnodup haligned htext
  have hfresh : ¬ s.HasTable (last / 0x100000) ↔ Fresh others last := by
    have hbefore : textStart ≤ last / 0x100000 * 0x100000 ∧ last / 0x100000 * 0x100000 < last ↔
        ¬ last % 0x100000 = 0 := by
      simp only [textStart] at htext ⊢
      omega
    rw [h.hasTable, Fresh, hbefore, not_or, not_not]
  have hdata := l.data_aligned
  refine ⟨t, ht, hframe, ⟨hframe.completed.trans h.completed, ?_, fun i => ?_, ?_⟩, ?_⟩
  · by_cases hhas : s.HasTable (last / 0x100000)
    · rw [hold hhas, hstay fun hf => hfresh.mpr hf hhas]
    · rw [hnew hhas, hstep (hfresh.mp hhas)]
  · have hupTo : textStart ≤ i * 0x100000 ∧ i * 0x100000 < last + 4096 ↔
        (textStart ≤ i * 0x100000 ∧ i * 0x100000 < last) ∨ i = last / 0x100000 := by
      simp only [textStart] at htext ⊢
      omega
    rw [htables, h.hasTable, hupTo, or_right_comm]
  · rw [hmapped]
    obtain ⟨hlt, hother⟩ | ⟨hle, rfl⟩ := htype
    · rw [mappedEnd_other hother, h.mapped]
      omega
    · rw [mappedEnd_data (h.mapped.trans (by omega))]
      omega
  · rw [hhands, h.mapped, hfresh]

/-- The next pages are mapped. -/
theorem Maps.mapPages (translate : Nat → Nat) (first count : Nat) (permissions : Permissions)
    (type : IntervalType) (h : Maps l others last s) (hnodup : others.Nodup)
    (hothers : others.length ≤ 2) (haligned : last % 4096 = 0) (htext : textStart ≤ last)
    (hlast : last + 4096 * count ≤ 2 ^ 32)
    (htype : last + 4096 * count ≤ l.dataStart ∧ type ≠ .data ∨
      l.dataStart ≤ last ∧ type = .data) :
    ∃ t, (List.range count).foldlM (fun s i => WagtailBoot.mapPage translate s (first + 4096 * i)
        (wrap (last + 4096 * i)) permissions type) s = some t ∧ Frame s t ∧
      Maps l others (last + 4096 * count) t ∧
      (HandsOutMapped l.dataStart t.trace ↔ HandsOutMapped l.dataStart s.trace ∧
        (.mmuEnabled ∈ s.trace → ∀ i < count, Fresh others (last + 4096 * i) →
          l.bump (tablesFor others (last + 4096 * i) + 1) ≤
            max l.dataStart (last + 4096 * i))) := by
  induction count with
  | zero => exact ⟨s, rfl, .refl s, h, by simp⟩
  | succ count ih =>
    obtain ⟨t, ht, hframe, hmaps, hhands⟩ := ih (by omega)
      (htype.imp_left (And.imp_left fun _ => by omega))
    obtain ⟨u, hu, hframe', hmaps', hhands'⟩ := hmaps.mapPage translate
      (first + 4096 * count) permissions type hnodup hothers (by omega) (by omega) (by omega)
      (htype.imp (And.imp_left fun _ => by omega) (And.imp_left fun _ => by omega))
    have hnext : last + 4096 * count + 4096 = last + 4096 * (count + 1) := by omega
    rw [hnext] at hmaps'
    refine ⟨u, foldlM_range_succ ht ?_, hframe.trans hframe', hmaps', ?_⟩
    · rwa [wrap_of_lt (by omega)]
    · rw [hhands', hhands, hframe.enabled, and_assoc]
      refine and_congr_right fun _ => ⟨fun ⟨hbefore, hnow⟩ henabled i hi => ?_,
        fun hall => ⟨fun henabled i hi => hall henabled i (by omega),
          fun henabled => hall henabled count (by omega)⟩⟩
      obtain hlt | rfl := Nat.lt_succ_iff_lt_or_eq.mp hi
      · exact hbefore henabled i hlt
      · exact hnow henabled

/-! ## Pages elsewhere -/

theorem tablesFor_cons {i : Nat} : tablesFor (i :: others) last =
    tablesFor others last + if last ≤ i * 0x100000 then 1 else 0 := by
  by_cases h : last ≤ i * 0x100000 <;> simp [tablesFor, h, Nat.add_assoc]

/-- A page of another megabyte that has a table is mapped. -/
theorem Maps.mapOther (translate : Nat → Nat) (page virt : Nat) (permissions : Permissions)
    (type : IntervalType) (h : Maps l others last s) (hothers : others.length ≤ 2)
    (hlast : last ≤ 2 ^ 32) (hvirt : virt < 2 ^ 32) (htype : type ≠ .data)
    (hmem : virt / 0x100000 ∈ others) :
    ∃ t, WagtailBoot.mapPage translate s page virt permissions type = some t ∧ Frame s t ∧
      Maps l others last t ∧
      (HandsOutMapped l.dataStart t.trace ↔ HandsOutMapped l.dataStart s.trace) := by
  obtain ⟨t, ht, hframe, htables, hold, -, hmapped, hhands⟩ := mapPage_spec translate page
    l.dataStart permissions type h.completed h.dataEnd (place_le hlast hothers) hvirt
  have hhas : s.HasTable (virt / 0x100000) := (h.hasTable _).mpr (.inr hmem)
  refine ⟨t, ht, hframe, ⟨hframe.completed.trans h.completed, hold hhas, fun i => ?_, ?_⟩, ?_⟩
  · rw [htables, h.hasTable]
    exact or_iff_left_of_imp fun he => .inr (he ▸ hmem)
  · rw [hmapped, mappedEnd_other htype, h.mapped]
  · rw [hhands]
    exact and_iff_left fun _ hnot => absurd hhas hnot

/-- The first page of another megabyte is mapped. -/
theorem Maps.mapFirst (translate : Nat → Nat) (page virt : Nat) (permissions : Permissions)
    (type : IntervalType) (h : Maps l others last s) (hothers : others.length ≤ 2)
    (hlast : last ≤ 2 ^ 32) (hvirt : virt < 2 ^ 32) (htype : type ≠ .data)
    (htext : textStart ≤ virt) (hnew : virt / 0x100000 ∉ others) :
    ∃ t, WagtailBoot.mapPage translate s page virt permissions type = some t ∧ Frame s t ∧
      Maps l (virt / 0x100000 :: others) last t ∧
      (HandsOutMapped l.dataStart t.trace ↔ HandsOutMapped l.dataStart s.trace ∧
        (.mmuEnabled ∈ s.trace → last ≤ virt / 0x100000 * 0x100000 →
          l.bump (tablesFor others last + 1) ≤ max l.dataStart last)) := by
  obtain ⟨t, ht, hframe, htables, hold, hmade, hmapped, hhands⟩ := mapPage_spec translate page
    l.dataStart permissions type h.completed h.dataEnd (place_le hlast hothers) hvirt
  have hfresh : ¬ s.HasTable (virt / 0x100000) ↔ last ≤ virt / 0x100000 * 0x100000 := by
    rw [h.hasTable, or_iff_left hnew]
    simp only [textStart] at htext ⊢
    omega
  refine ⟨t, ht, hframe, ⟨hframe.completed.trans h.completed, ?_, fun i => ?_, ?_⟩, ?_⟩
  · rw [tablesFor_cons]
    by_cases hhas : s.HasTable (virt / 0x100000)
    · rw [hold hhas, if_neg fun hle => hfresh.mpr hle hhas]
      rfl
    · rw [hmade hhas, if_pos (hfresh.mp hhas)]
  · rw [htables, h.hasTable, List.mem_cons, or_assoc, or_comm (b := i = virt / 0x100000)]
  · rw [hmapped, mappedEnd_other htype, h.mapped]
  · rw [hhands, h.mapped, hfresh]

/-- Pages of another megabyte are mapped. -/
theorem Maps.mapOthers (translate : Nat → Nat) (first virt count : Nat) (permissions : Permissions)
    (type : IntervalType) (h : Maps l others last s) (hothers : others.length ≤ 1)
    (hlast : last ≤ 2 ^ 32) (hvirt : virt + 4096 * count < 2 ^ 32) (htype : type ≠ .data)
    (htext : textStart ≤ virt) (hnew : virt / 0x100000 ∉ others)
    (hsame : (virt + 4096 * count) / 0x100000 = virt / 0x100000) :
    ∃ t, (List.range (count + 1)).foldlM (fun s i => WagtailBoot.mapPage translate s
        (first + 4096 * i) (wrap (virt + 4096 * i)) permissions type) s = some t ∧ Frame s t ∧
      Maps l (virt / 0x100000 :: others) last t ∧
      (HandsOutMapped l.dataStart t.trace ↔ HandsOutMapped l.dataStart s.trace ∧
        (.mmuEnabled ∈ s.trace → last ≤ virt / 0x100000 * 0x100000 →
          l.bump (tablesFor others last + 1) ≤ max l.dataStart last)) := by
  induction count with
  | zero =>
    obtain ⟨t, ht, hframe, hmaps, hhands⟩ := h.mapFirst translate first virt
      permissions type (by omega) hlast (by omega) htype htext hnew
    refine ⟨t, foldlM_range_succ rfl ?_, hframe, hmaps, hhands⟩
    rwa [Nat.mul_zero, Nat.add_zero, Nat.add_zero, wrap_of_lt (by omega)]
  | succ count ih =>
    obtain ⟨t, ht, hframe, hmaps, hhands⟩ := ih (by omega) (by omega)
    obtain ⟨u, hu, hframe', hmaps', hhands'⟩ := hmaps.mapOther translate
      (first + 4096 * (count + 1)) (virt + 4096 * (count + 1)) permissions type
      (by simp only [List.length_cons]; omega) hlast (by omega) htype
      (by rw [hsame]; exact List.mem_cons_self)
    refine ⟨u, foldlM_range_succ ht ?_, hframe.trans hframe', hmaps', hhands'.trans hhands⟩
    rwa [wrap_of_lt (by omega)]

end WagtailBoot
