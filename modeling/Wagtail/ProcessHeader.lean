import Mathlib.Data.List.TakeWhile
import Wagtail.ProcessImage
import Wagtail.ProcessTables

/-!
# Executables that nobody has checked

`process::process(char *)` does not look at the signature of an executable and
takes its section addresses as they are. A store that aborts does not stop it. So
it does what it should, to stay in user memory and to refuse what it cannot load,
exactly for the executables that carry the signature and are in order.
-/
namespace WagtailProcess

open Word (wrap sub wrap_of_lt sub_of_le)
open WagtailFilesystem (Buffer le32)
open WagtailHeap (maskLeft)
open WagtailMmu
open Runs (bind_of_ok)

variable {translate new : Nat → Nat} {w u : World} {table pid : Nat} {buffer : Buffer}
  {header : Header}

/-! ## Headers -/

/-- The signature `WOS`. -/
def Signed (buffer : Buffer) : Prop := buffer 4 = 0x57 ∧ buffer 5 = 0x4f ∧ buffer 6 = 0x53
  deriving Decidable

/-- The section addresses are ordered, in user memory and below the stack. -/
structure Header.InOrder (header : Header) : Prop where
  code : 0x1000 ≤ header.dataStart
  data : header.dataStart ≤ header.bssStart
  bss : header.bssStart ≤ header.applicationEnd
  room : header.applicationEnd ≤ 0x80000000 - defaultStackSize

/-- The end of the application, rounded up to a page. -/
def Header.roundedEnd (header : Header) : Nat :=
  wrap (header.applicationEnd + 4095) &&& maskLeft 4096

/-- The pages that are mapped for the executable. -/
def Header.requests (header : Header) : List Request :=
  WagtailProcess.requests header.codePages header.dataPages stackPagesDefault

def UserAddress (virt : Nat) : Prop := 0x1000 ≤ virt ∧ virt < 0x80000000
  deriving Decidable

/-- The pages that are mapped before one outside of user memory. -/
def Header.leading (header : Header) : List Request :=
  header.requests.takeWhile fun r => UserAddress r.address

theorem le32_lt (buffer : Buffer) (i : Nat) : le32 buffer i < 2 ^ 32 := by
  have hbyte : ∀ j k, k ≤ 24 → (buffer j).toNat <<< k < 2 ^ 32 := by
    intro j k hk
    have hlt := (buffer j).toNat_lt
    rw [Nat.shiftLeft_eq]
    calc (buffer j).toNat * 2 ^ k ≤ 255 * 2 ^ 24 :=
          Nat.mul_le_mul (by omega) (Nat.pow_le_pow_right (by decide) hk)
      _ < 2 ^ 32 := by decide
  have hfirst := hbyte i 0 (by decide)
  rw [Nat.shiftLeft_zero] at hfirst
  unfold le32
  exact Nat.or_lt_two_pow (Nat.or_lt_two_pow (Nat.or_lt_two_pow hfirst (hbyte _ 8 (by decide)))
    (hbyte _ 16 (by decide))) (hbyte _ 24 (by decide))

theorem Header.roundedEnd_eq (header : Header) :
    header.roundedEnd = wrap (header.applicationEnd + 4095) / 4096 * 4096 :=
  WagtailHeap.and_maskLeft (k := 12) (by decide) (Word.wrap_lt _)

theorem Header.codePages_eq (hword : header.dataStart < 2 ^ 32) : header.codePages =
    if 0x1000 ≤ header.dataStart then header.dataStart / 4096 - 1 else 2 ^ 20 - 1 := by
  rw [codePages, Nat.shiftRight_eq_div_pow, sub]
  split_ifs <;> omega

/-- The subtractions wrap around if the pages of the code go past the end. -/
theorem Header.pages_eq (hword : header.dataStart < 2 ^ 32) :
    header.codePages + header.dataPages =
      if header.codePages < header.roundedEnd / 4096 then header.roundedEnd / 4096 - 1
      else 2 ^ 20 + header.roundedEnd / 4096 - 1 := by
  have hend := header.roundedEnd_eq
  have hendlt := Word.wrap_lt (header.applicationEnd + 4095)
  have hcode : header.codePages < 2 ^ 20 := by
    rw [header.codePages_eq hword]
    split_ifs <;> omega
  have hshift : wrap (header.codePages <<< 12) = header.codePages * 4096 := by
    rw [Nat.shiftLeft_eq, wrap_of_lt (by omega)]
  have hdata : header.dataPages =
      sub (sub header.roundedEnd (header.codePages * 4096)) 0x1000 / 4096 := by
    rw [← hshift]
    exact Nat.shiftRight_eq_div_pow _ 12
  rw [hdata, sub, sub]
  split_ifs <;> omega

/-- The pages of the executable are in user memory exactly if those of the code do not go past
the end. -/
theorem Header.inUser_iff (hword : header.dataStart < 2 ^ 32) :
    InUser header.codePages header.dataPages stackPagesDefault ↔
      0x1000 ≤ header.dataStart ∧ header.dataStart / 4096 * 4096 ≤ header.roundedEnd ∧
        header.roundedEnd ≤ 0x80000000 := by
  have hend := header.roundedEnd_eq
  have hcode := header.codePages_eq hword
  have hpages := header.pages_eq hword
  have hstack : stackPagesDefault ≤ 0x80000 := by decide
  rw [InUser, and_iff_left hstack]
  split_ifs at hcode hpages <;> omega

/-! ## Accesses -/

/-- What the constructor does to the address space. -/
inductive Access where
  | map (r : Request)
  | activate (pid : Nat)
  | store (virt byte : Nat)

/-- The virtual address that is mapped or written. -/
def Access.address : Access → Option Nat
  | .map r => some r.address
  | .activate _ => none
  | .store virt _ => some virt

def World.access (translate new : Nat → Nat) (table : Nat) (w : World) :
    Access → Except Fault World
  | .map r => mapNew translate new table w r
  | .activate pid => .ok (w.setApplicationTable translate table pid)
  | .store virt byte => w.store virt byte

/-- A loop that copies a buffer to user memory. -/
def stores (virt count : Nat) (buffer : Nat → Nat) : List Access :=
  (List.range count).map fun i => .store (wrap (virt + i)) (buffer i)

/-- The two copy loops. -/
def Header.copies (header : Header) (buffer : Nat → Nat) : List Access :=
  stores 0x1000 (sub header.dataStart 0x1000) buffer ++
    stores (wrap (0x1000 + header.codePages * 0x1000)) (sub header.bssStart header.dataStart)
      fun i => buffer (i + header.codePages * 0x1000)

/-- Everything that the constructor does, in order. -/
def Header.accesses (header : Header) (pid : Nat) (buffer : Nat → Nat) : List Access :=
  header.requests.map .map ++ .activate pid :: header.copies buffer

theorem storeBuffer_eq {virt count : Nat} {buffer : Nat → Nat} : w.storeBuffer virt count buffer =
    (stores virt count buffer).foldlM (World.access translate new table) w := by
  rw [stores, List.foldlM_map]
  rfl

theorem copies_eq {t : World} {buffer : Nat → Nat} :
    ((t.setApplicationTable translate table pid).storeBuffer 0x1000 (sub header.dataStart 0x1000)
      buffer >>= fun w => w.storeBuffer (wrap (0x1000 + header.codePages * 0x1000))
        (sub header.bssStart header.dataStart) fun i => buffer (i + header.codePages * 0x1000)) =
      (.activate pid :: header.copies buffer).foldlM (World.access translate new table) t := by
  have hactivate : World.access translate new table t (.activate pid) =
    .ok (t.setApplicationTable translate table pid) := rfl
  have hcopy : ∀ (w : World) virt count buffer, w.storeBuffer virt count buffer =
      (stores virt count buffer).foldlM (World.access translate new table) w :=
    fun _ _ _ _ => storeBuffer_eq
  rw [List.foldlM_cons, bind_of_ok hactivate, Header.copies, List.foldlM_append]
  simp only [hcopy]

/-- The process that is made of an executable. -/
def loadedProcess (w : World) (table pid : Nat) (header : Header) : Process :=
  { (newProcess w table pid).2 with
    programBreak := wrap (0x1000 + header.codePages * 0x1000 + header.dataPages * 0x1000)
    registers := { (newProcess w table pid).2.registers with
      r := Function.update (newProcess w table pid).2.registers.r WagtailScheduler.sp 0x80000000 }
    codePages := header.codePages
    dataPages := header.dataPages
    stackPages := stackPagesDefault
    usable := true }

/-- The constructor is the sequence of its accesses, and then says that the process is usable. -/
theorem processFromBuffer_accesses (header : Header) (buffer : Nat → Nat) :
    processFromBuffer translate new w table pid header buffer =
      (header.accesses pid buffer).foldlM (World.access translate new table)
        (newProcess w table pid).1 >>=
          fun u => Except.ok (u, loadedProcess w table pid header) := by
  rw [processFromBuffer_eq, setupAddrspace_eq, Header.accesses, List.foldlM_append,
    List.foldlM_map]
  change header.requests.foldlM (mapNew translate new table) (newProcess w table pid).1 >>= _ >>=
    _ = header.requests.foldlM (mapNew translate new table) (newProcess w table pid).1 >>= _ >>= _
  cases header.requests.foldlM (mapNew translate new table) (newProcess w table pid).1 with
  | error x => simp only [bind, Except.bind]
  | ok t =>
    simp only [bind_of_ok rfl]
    rw [← copies_eq, bind_assoc]
    rfl

/-! ## Where the accesses are -/

theorem mem_stores {virt count : Nat} {buffer : Nat → Nat} {a : Access}
    (h : a ∈ stores virt count buffer) :
    ∃ i < count, ∃ b, a = .store (wrap (virt + i)) b := by
  obtain ⟨i, hi, rfl⟩ := List.mem_map.mp h
  exact ⟨i, List.mem_range.mp hi, buffer i, rfl⟩

theorem mem_copies {a : Access} {buffer : Nat → Nat} (h : a ∈ header.copies buffer) :
    ∃ v b, a = .store v b := by
  rcases List.mem_append.mp h with h | h
  · obtain ⟨i, -, b, rfl⟩ := mem_stores h
    exact ⟨_, b, rfl⟩
  · obtain ⟨i, -, b, rfl⟩ := mem_stores h
    exact ⟨_, b, rfl⟩

theorem World.store_ok {virt : Nat} (hlow : virt < 0x80000000) (w : World) (byte : Nat) :
    ∃ u, w.store virt byte = .ok u := by
  cases hphysical : w.physical virt with
  | ok physical => exact ⟨_, World.store_of hphysical⟩
  | error e =>
    rw [store, hphysical]
    exact ⟨_, if_pos hlow⟩

/-- Stores to user memory do not stop the constructor, whether they abort or not. -/
theorem foldlM_stores (translate new : Nat → Nat) (table : Nat) {l : List Access}
    (hl : ∀ a ∈ l, ∃ v b, a = .store v b ∧ UserAddress v) (w : World) : ∃ u, l.foldlM (World.access translate new table) w = .ok u := by
  induction l generalizing w with
  | nil => exact ⟨w, rfl⟩
  | cons a l ih =>
    obtain ⟨v, b, rfl, -, hlow⟩ := hl a (by simp)
    obtain ⟨t, ht⟩ := World.store_ok hlow w b
    have hstore : World.access translate new table w (.store v b) = .ok t := ht
    rw [List.foldlM_cons, bind_of_ok hstore]
    exact ih (fun a ha => hl a (List.mem_cons_of_mem _ ha)) t

/-- A list has only elements with a property, or there is a first one without it. -/
theorem takeWhile_cases {α : Type} (p : α → Bool) (l : List α) :
    l.takeWhile p = l ∨ ∃ a rest, l = l.takeWhile p ++ a :: rest ∧ p a = false := by
  have hsplit : l.takeWhile p ++ l.dropWhile p = l := List.takeWhile_append_dropWhile
  cases hrest : l.dropWhile p with
  | nil =>
    rw [hrest, List.append_nil] at hsplit
    exact .inl hsplit
  | cons a rest =>
    have hne : l.dropWhile p ≠ [] := by simp [hrest]
    have hnot := List.head_dropWhile_not p hne
    simp only [hrest, List.head_cons] at hnot
    rw [hrest] at hsplit
    exact .inr ⟨a, rest, hsplit.symm, hnot⟩

/-! ## When the header is right -/

theorem leading_user {r : Request} (h : r ∈ header.leading) : UserAddress r.address := by
  simpa using List.mem_takeWhile_imp h

theorem leading_inRange : InRange header.leading := by
  intro r hr
  have huser := (leading_user hr).2
  rw [Nat.shiftRight_eq_div_pow]
  omega

theorem leading_cases (header : Header) : header.leading = header.requests ∨
    ∃ r rest, header.requests = header.leading ++ r :: rest ∧ ¬UserAddress r.address := by
  obtain hall | ⟨r, rest, hsplit, hnot⟩ := takeWhile_cases _ header.requests
  · exact .inl hall
  · exact .inr ⟨r, rest, hsplit, by simpa using hnot⟩

/-- A store outside of user memory has only stores to user memory before it. -/
theorem copies_cases (header : Header) (buffer : Nat → Nat) :
    (∀ a ∈ header.copies buffer, ∃ v b, a = .store v b ∧ UserAddress v) ∨
    ∃ done v b rest, header.copies buffer = done ++ .store v b :: rest ∧
      (∀ a ∈ done, ∃ v b, a = .store v b ∧ UserAddress v) ∧ ¬UserAddress v := by
  have hbefore : ∀ a ∈ (header.copies buffer).takeWhile fun a => a.address.all UserAddress,
      ∃ v b, a = .store v b ∧ UserAddress v := by
    intro a ha
    have huser := List.mem_takeWhile_imp ha
    obtain ⟨v, b, rfl⟩ := mem_copies ((List.takeWhile_prefix _).subset ha)
    exact ⟨v, b, rfl, by simpa [Access.address] using huser⟩
  obtain hall | ⟨a, rest, hsplit, hnot⟩ :=
    takeWhile_cases (fun a => a.address.all UserAddress) (header.copies buffer)
  · exact .inl (hall ▸ hbefore)
  · have ha : a ∈ header.copies buffer := by
      rw [hsplit]
      simp
    obtain ⟨v, b, rfl⟩ := mem_copies ha
    exact .inr ⟨_, v, b, rest, hsplit, hbefore, by simpa [Access.address] using hnot⟩

/-- With all pages in user memory the leading ones are all. -/
theorem InUser.leading (h : InUser header.codePages header.dataPages stackPagesDefault) :
    header.leading = header.requests := by
  have hcd := h.1
  have hstack : stackPagesDefault = 4 := rfl
  apply List.takeWhile_eq_self_iff.mpr
  intro r hr
  have hpage := (requested_iff h r.address).mp ⟨r, hr, rfl⟩
  have huser : UserAddress r.address := ⟨by omega, by omega⟩
  simpa using huser

theorem inUser_of_leading (h : header.leading = header.requests) :
    InUser header.codePages header.dataPages stackPagesDefault := by
  have hrange : InRange header.requests := h ▸ leading_inRange
  exact inUser_of_inRange hrange

/-- Where the second copy loop starts. -/
theorem copies_start (hword : header.dataStart < 2 ^ 32)
    (h : InUser header.codePages header.dataPages stackPagesDefault) :
    wrap (0x1000 + header.codePages * 0x1000) = header.dataStart / 4096 * 4096 := by
  obtain ⟨hstart, -, -⟩ := (header.inUser_iff hword).mp h
  have hcode := header.codePages_eq hword
  rw [if_pos hstart] at hcode
  rw [wrap_of_lt (by omega)]
  omega

/-- A header in order has all stores in user memory. -/
theorem Header.InOrder.inUser (hword : header.dataStart < 2 ^ 32) (h : header.InOrder) :
    InUser header.codePages header.dataPages stackPagesDefault ∧
      ∀ (buffer : Nat → Nat), ∀ a ∈ header.copies buffer, ∀ v ∈ a.address, UserAddress v := by
  obtain ⟨hcode, hdata, hbss, hroom⟩ := h
  have hroom : header.applicationEnd ≤ 0x80000000 - 0x4000 := hroom
  have hend := header.roundedEnd_eq
  rw [wrap_of_lt (by omega)] at hend
  have hinUser := (header.inUser_iff hword).mpr ⟨hcode, by omega, by omega⟩
  refine ⟨hinUser, fun buffer a hmem v hv => ?_⟩
  rcases List.mem_append.mp hmem with hmem | hmem
  · obtain ⟨i, hi, b, rfl⟩ := mem_stores hmem
    obtain rfl := Option.some.inj hv
    rw [sub_of_le hcode hword] at hi
    rw [wrap_of_lt (by omega)]
    constructor <;> omega
  · obtain ⟨i, hi, b, rfl⟩ := mem_stores hmem
    obtain rfl := Option.some.inj hv
    rw [sub_of_le hdata (by omega)] at hi
    rw [copies_start hword hinUser, wrap_of_lt (by omega)]
    constructor <;> omega

/-! ## What is checked -/

/-- Only executables in order become usable, and nothing outside of user memory is mapped or
written, nor is an entry behind the end of the table. -/
structure Checked (translate new : Nat → Nat) (w : World) (table pid : Nat) (buffer : Buffer) :
    Prop where
  usable : ∀ u proc, processFromImage translate new w table pid buffer = .ok (u, proc) →
    proc.usable = true → Signed buffer ∧ (readHeader buffer).InOrder
  inUser : ∀ done a rest t,
    (readHeader buffer).accesses pid (fun i => (buffer i).toNat) = done ++ a :: rest →
    done.foldlM (World.access translate new table) (newProcess w table pid).1 = .ok t →
    ∀ v ∈ a.address, UserAddress v
  range : processFromImage translate new w table pid buffer ≠ .error .range

theorem processFromImage_accesses : processFromImage translate new w table pid buffer =
    ((readHeader buffer).accesses pid fun i => (buffer i).toNat).foldlM
      (World.access translate new table) (newProcess w table pid).1 >>= fun u =>
        Except.ok (u, loadedProcess w table pid (readHeader buffer)) :=
  processFromBuffer_accesses ..

theorem foldlM_requests (rs : List Request) :
    (rs.map Access.map).foldlM (World.access translate new table) w =
      rs.foldlM (mapNew translate new table) w := by
  rw [List.foldlM_map]
  rfl

/-- With all pages in user memory and enough page tables the address space is set up. -/
theorem setup_ok (heap : HeapPages translate new) (hw : Valid translate new w)
    (hnone : ∀ v, w.walk table v = none) (pid : Nat)
    (hinUser : InUser header.codePages header.dataPages stackPagesDefault)
    (hheap : Provides translate new w.memory (megabytes header.leading)) :
    ∃ t, (header.requests.map Access.map).foldlM (World.access translate new table)
      (newProcess w table pid).1 = .ok t := by
  obtain ⟨hw₀, hwalk₀⟩ := newProcess_valid heap hw hnone pid
  have hnone₀ : ∀ v, (newProcess w table pid).1.walk table v = none :=
    fun v => (hwalk₀ table v).trans (hnone v)
  obtain ⟨-, t, ht, -, -⟩ := (mapAll_provides heap hw₀ hnone₀
    leading_inRange).resolve_right fun h => h.1 hheap
  rw [hinUser.leading] at ht
  exact ⟨t, (foldlM_requests _).trans ht⟩

theorem requests_user (hinUser : InUser header.codePages header.dataPages stackPagesDefault) :
    ∀ a ∈ header.requests.map Access.map, ∀ v ∈ a.address, UserAddress v := by
  intro a ha v hv
  rw [← hinUser.leading] at ha
  obtain ⟨r, hr, rfl⟩ := List.mem_map.mp ha
  obtain rfl := Option.some.inj hv
  exact leading_user hr

/-- With everything in user memory and enough page tables the constructor comes to its end. -/
theorem processFromImage_finishes (heap : HeapPages translate new) (hw : Valid translate new w)
    (hnone : ∀ v, w.walk table v = none) (pid : Nat)
    (hinUser : InUser (readHeader buffer).codePages (readHeader buffer).dataPages
      stackPagesDefault)
    (hheap : Provides translate new w.memory (megabytes (readHeader buffer).leading))
    (hcopies : ∀ a ∈ (readHeader buffer).copies fun i => (buffer i).toNat,
      ∃ v b, a = .store v b ∧ UserAddress v) :
    ∃ u, processFromImage translate new w table pid buffer =
      .ok (u, loadedProcess w table pid (readHeader buffer)) := by
  obtain ⟨t, ht⟩ := setup_ok heap hw hnone pid hinUser hheap
  have hactivate : World.access translate new table t (.activate pid) =
    .ok (t.setApplicationTable translate table pid) := rfl
  obtain ⟨u, hu⟩ := foldlM_stores translate new table hcopies
    (t.setApplicationTable translate table pid)
  refine ⟨u, ?_⟩
  rw [processFromImage_accesses, Header.accesses, List.foldlM_append, bind_of_ok ht,
    List.foldlM_cons, bind_of_ok hactivate, hu]
  rfl

/-- An executable in order. -/
theorem checked_of_inOrder (heap : HeapPages translate new) (hw : Valid translate new w)
    (hnone : ∀ v, w.walk table v = none) (hsigned : Signed buffer)
    (hh : (readHeader buffer).InOrder)
    (hheap : Provides translate new w.memory (megabytes (readHeader buffer).leading)) :
    Checked translate new w table pid buffer := by
  obtain ⟨hinUser, hstores⟩ := hh.inUser (le32_lt buffer 8)
  constructor
  · exact fun _ _ _ _ => ⟨hsigned, hh⟩
  · intro done a rest t hdone _ v hv
    have ha : a ∈ (readHeader buffer).accesses pid fun i => (buffer i).toNat := by simp [hdone]
    rcases List.mem_append.mp ha with ha | ha
    · exact requests_user hinUser a ha v hv
    · rcases List.mem_cons.mp ha with rfl | ha
      · cases hv
      · exact hstores _ a ha v hv
  · obtain ⟨u, hu⟩ := processFromImage_finishes heap hw hnone pid hinUser hheap fun a ha => by
      obtain ⟨v, b, rfl⟩ := mem_copies ha
      exact ⟨v, b, rfl, hstores _ _ ha v rfl⟩
    rw [hu]
    exact nofun

/-- The executable has to be in order. -/
theorem Checked.inOrder (heap : HeapPages translate new) (hw : Valid translate new w)
    (hnone : ∀ v, w.walk table v = none) (h : Checked translate new w table pid buffer)
    (hheap : Provides translate new w.memory (megabytes (readHeader buffer).leading)) :
    Signed buffer ∧ (readHeader buffer).InOrder := by
  obtain hall | ⟨r, rest, hsplit, hnot⟩ := leading_cases (readHeader buffer)
  · have hinUser := inUser_of_leading hall
    obtain hcopies | ⟨done, v, b, rest, hsplit, hdone, hnot⟩ :=
      copies_cases (readHeader buffer) fun i => (buffer i).toNat
    · obtain ⟨u, himage⟩ := processFromImage_finishes heap hw hnone pid hinUser hheap hcopies
      exact h.usable u _ himage rfl
    · -- the copy loops come to the first store outside of user memory
      obtain ⟨t, ht⟩ := setup_ok heap hw hnone pid hinUser hheap
      have hactivate : World.access translate new table t (.activate pid) =
        .ok (t.setApplicationTable translate table pid) := rfl
      obtain ⟨u, hu⟩ := foldlM_stores translate new table hdone
        (t.setApplicationTable translate table pid)
      have haccesses : (readHeader buffer).accesses pid (fun i => (buffer i).toNat) =
          ((readHeader buffer).requests.map .map ++ .activate pid :: done) ++
            .store v b :: rest := by
        rw [Header.accesses, hsplit]
        simp
      have hbefore : ((readHeader buffer).requests.map Access.map ++ .activate pid :: done).foldlM
          (World.access translate new table) (newProcess w table pid).1 = .ok u := by
        rw [List.foldlM_append, bind_of_ok ht, List.foldlM_cons, bind_of_ok hactivate]
        exact hu
      exact absurd (h.inUser _ _ _ u haccesses hbefore v rfl) hnot
  · -- the first page outside of user memory is mapped
    obtain ⟨hw₀, hwalk₀⟩ := newProcess_valid heap hw hnone pid
    have hnone₀ : ∀ v, (newProcess w table pid).1.walk table v = none :=
      fun v => (hwalk₀ table v).trans (hnone v)
    obtain ⟨-, t, ht, -, -⟩ := (mapAll_provides heap hw₀ hnone₀ leading_inRange).resolve_right
      fun hfail => hfail.1 hheap
    have haccesses : ∃ tail, (readHeader buffer).accesses pid (fun i => (buffer i).toNat) =
        (readHeader buffer).leading.map .map ++ .map r :: tail := by
      rw [Header.accesses, hsplit, List.map_append, List.map_cons, List.append_assoc]
      exact ⟨_, rfl⟩
    obtain ⟨tail, haccesses⟩ := haccesses
    rw [← foldlM_requests] at ht
    exact absurd (h.inUser _ _ _ t haccesses ht r.address rfl) hnot

/-- For every content of the buffer, if the heap has memory for the page tables: only executables
in order become usable, and nothing outside of user memory is mapped or written, if and only if
the header carries the signature and is in order. -/
theorem processFromImage_checked_iff (heap : HeapPages translate new)
    (hw : Valid translate new w) (hnone : ∀ v, w.walk table v = none) (pid : Nat)
    (buffer : Buffer)
    (hheap : Provides translate new w.memory (megabytes (readHeader buffer).leading)) :
    Checked translate new w table pid buffer ↔ Signed buffer ∧ (readHeader buffer).InOrder :=
  ⟨fun h => h.inOrder heap hw hnone hheap,
    fun ⟨hsigned, hh⟩ => checked_of_inOrder heap hw hnone hsigned hh hheap⟩

theorem smallImage_checked : Checked id supply (bare 16).world 0x80010000 1 smallImage := by
  have hmegabytes : megabytes (readHeader smallImage).leading = 2 := by decide +kernel
  have htables : ∀ k < 2, ∀ j < k, nextTable id supply (bare 16).world.memory k ≠
      nextTable id supply (bare 16).world.memory j := by decide +kernel
  have hheap : Provides id supply (bare 16).world.memory
      (megabytes (readHeader smallImage).leading) :=
    hmegabytes ▸ fun k hk => ⟨rfl, htables k hk⟩
  exact (processFromImage_checked_iff heapPages_supply (bare_valid (by decide)) (bare_walk 16 _) 1
    smallImage hheap).mpr ⟨by decide, by decide, by decide, by decide, by decide⟩

/-- The same page without the signature. -/
def unsignedImage : Buffer
  | 9 => 0x20
  | 13 => 0x20
  | 17 => 0x20
  | _ => 0

/-- It becomes a usable process. -/
theorem unsignedImage_usable : (∃ u proc,
    processFromImage id supply (bare 16).world 0x80010000 1 unsignedImage = .ok (u, proc) ∧
      proc.usable = true) ∧
    ¬Checked id supply (bare 16).world 0x80010000 1 unsignedImage := by
  have hheader : readHeader unsignedImage = smallHeader := by decide
  have hh : (readHeader unsignedImage).WellFormed := hheader ▸ smallHeader_wellFormed
  have hmapped : (firstMapped 16).toOption.isSome = true := by decide +kernel
  obtain ⟨w, hw⟩ := ok_of_isSome hmapped
  obtain ⟨u, proc, hmade, hloaded⟩ | ⟨hcause, -⟩ := processFromBuffer_loaded heapPages_supply
    (bare_valid (n := 16) (by decide)) (bare_walk 16 0x80010000) 1 hh
    (fun i => (unsignedImage i).toNat) (by decide +kernel)
  · refine ⟨⟨u, proc, hmade, hloaded.usable⟩, fun hchecked => ?_⟩
    have hsigned := (hchecked.usable u proc hmade hloaded.usable).1
    exact absurd hsigned (by decide)
  · rw [hheader] at hcause
    cases hcause.symm.trans hw

end WagtailProcess
