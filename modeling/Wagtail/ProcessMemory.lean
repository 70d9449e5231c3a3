import Wagtail.HeapCalls
import Wagtail.ProcessPages

/-!
# The memory of processes

The constructors fill the address space of a new process through the active
translation table. A copy of a process has the bytes of its parent at the same
addresses, in pages of its own.
-/
namespace WagtailProcess

open Word (wrap sub wrap_of_lt sub_of_le)
open WagtailHeap (maskLeft)
open WagtailMmu
open WagtailScheduler (sp)
open Runs (bind_of_ok foldlM_except foldlM_snoc)

variable {translate new : Nat → Nat} {w u : World} {table : Nat}

/-! ## New processes -/

/-- What only the tables and the kernel's memory decide. -/
theorem Valid.congr (hw : Valid translate new w) (htables : u.tables = w.tables)
    (hmemory : u.memory = w.memory) : Valid translate new u := by
  obtain ⟨tables, memory, bytes, mmu, dataAborts⟩ := u
  obtain rfl : tables = w.tables := htables
  obtain rfl : memory = w.memory := hmemory
  exact ⟨hw.sound, hw.ready, hw.exclusive, hw.address⟩

/-- A table in which nothing is mapped can be cleared. -/
theorem newProcess_valid (heap : HeapPages translate new) (hw : Valid translate new w)
    (hnone : ∀ v, w.walk table v = none) (pid : Nat) :
    Valid translate new (newProcess w table pid).1 ∧
      ∀ q v, (newProcess w table pid).1.walk q v = w.walk q v := by
  have hzero : (w.tables table).table = fun _ => 0 := by
    funext i
    by_contra hne
    obtain ⟨v, -, hv⟩ := (hw.sound.entry_iff heap table i).mp hne
    exact hv (hnone v)
  have hnew : (newProcess w table pid).1.tables = Function.update w.tables table .cleared := rfl
  have hsame : ∀ q, ((newProcess w table pid).1.tables q).table = (w.tables q).table := by
    intro q
    rw [hnew]
    by_cases hq : q = table
    · subst hq
      rw [hzero, Function.update_self]
      rfl
    · rw [Function.update_of_ne hq]
  have hwalk : ∀ q v, (newProcess w table pid).1.walk q v = w.walk q v := by
    intro q v
    change Option.map _ (descriptor w.memory ((newProcess w table pid).1.tables q) v) = _
    rw [descriptor, hsame]
    rfl
  have hrows : rows (newProcess w table pid).1.tables w.memory = rows w.tables w.memory := by
    simp only [rows, hsame]
  have hheld : (newProcess w table pid).1.held = w.held := by
    funext x
    simp only [World.held, hwalk]
  refine ⟨⟨⟨?_, ?_, ?_, hw.sound.valid⟩, hw.ready, ?_, hw.address⟩, hwalk⟩
  · exact hrows ▸ hw.sound.tidy
  · intro q i
    rw [hnew]
    by_cases hq : q = table
    · subst hq
      rw [Function.update_self]
      exact .inl rfl
    · rw [Function.update_of_ne hq]
      exact hw.sound.entry q i
  · intro q physical pt hvalue
    rw [hnew] at hvalue
    by_cases hq : q = table
    · subst hq
      rw [Function.update_self] at hvalue
      cases hvalue
    · rw [Function.update_of_ne hq] at hvalue
      exact hw.sound.directory q physical pt hvalue
  · rw [hheld]
    exact hw.exclusive

/-- The address space of a new process: the requests are met in the table, and no store to it has
aborted. -/
structure Built (translate new : Nat → Nat) (w : World) (table pid codePages dataPages
    stackPages : Nat) (u : World) (proc : Process) : Prop where
  fields : proc.pid = pid ∧ proc.translationTable = table ∧ proc.codePages = codePages ∧
    proc.dataPages = dataPages ∧ proc.stackPages = stackPages ∧
    proc.programBreak = wrap (0x1000 + codePages * 0x1000 + dataPages * 0x1000)
  mapped : ∃ t, (requests codePages dataPages stackPages).foldlM (mapNew translate new table)
    (newProcess w table pid).1 = .ok t ∧ Grown translate new table (newProcess w table pid).1
      (requests codePages dataPages stackPages) t ∧ u.tables = t.tables ∧ u.memory = t.memory
  quiet : u.dataAborts = w.dataAborts

theorem setupAddrspace_eq (w : World) (proc : Process) : setupAddrspace translate new w proc =
    proc.requests.foldlM (mapNew translate new proc.translationTable) w >>= fun w =>
      Except.ok (w, { proc with
        programBreak := wrap (0x1000 + proc.codePages * 0x1000 + proc.dataPages * 0x1000) }) := by
  simp only [setupAddrspace, Process.requests, requests, List.foldlM_append, bind_assoc]

/-! ## User memory -/

theorem World.physical_of {virt page : Nat}
    (h : w.walk w.mmu.currentApplicationTable virt = some page) :
    w.physical virt = .ok (page + virt % 4096) := by
  have h : WagtailMmu.walk w.memory (w.tables w.mmu.currentApplicationTable) virt = some page := h
  rw [physical, h]

theorem World.load_of {virt physical : Nat} (h : w.physical virt = .ok physical) :
    w.load virt = .ok (w.bytes physical) := by
  rw [load, h]
  rfl

theorem World.store_of {virt physical byte : Nat} (h : w.physical virt = .ok physical) :
    w.store virt byte =
      .ok { w with bytes := Function.update w.bytes physical byte } := by
  rw [store, h]

theorem World.store_unmapped {virt : Nat}
    (h : w.walk w.mmu.currentApplicationTable virt = none) (byte : Nat) :
    w.store virt byte = w.abortStore virt := by
  have h : WagtailMmu.walk w.memory (w.tables w.mmu.currentApplicationTable) virt = none := h
  rw [store, physical, h]

/-- The addresses from `virt` on are those of a physical page in order. -/
def World.Page (w : World) (virt page : Nat) : Prop :=
  ∀ i < 4096, w.physical (wrap (virt + i)) = .ok (page + i)

theorem World.page_of (heap : HeapPages translate new)
    (hw : Sound translate new w.tables w.memory) {virt page : Nat} (halign : virt % 4096 = 0)
    (hlt : virt < 2 ^ 32)
    (hpage : w.walk w.mmu.currentApplicationTable virt = some page) : w.Page virt page := by
  intro i hi
  have hwrap : wrap (virt + i) = virt + i := wrap_of_lt (by omega)
  have hsame : w.walk w.mmu.currentApplicationTable (virt + i) = some page := by
    rw [← hpage]
    exact walk_page heap hw (by omega)
  have hoffset : (virt + i) % 4096 = i := by omega
  rw [hwrap, World.physical_of hsame, hoffset]

theorem World.loadBuffer_page {virt page count : Nat} (h : w.Page virt page) (hcount : count ≤ 4096)
    (buffer : Nat → Nat) : w.loadBuffer virt count buffer =
      .ok fun i => if i < count then w.bytes (page + i) else buffer i := by
  induction count with
  | zero => simp [loadBuffer, pure, Except.pure]
  | succ count ih =>
    have hbefore := ih (by omega)
    unfold loadBuffer at hbefore ⊢
    rw [List.range_succ, foldlM_snoc, bind_of_ok hbefore]
    rw [bind_of_ok (World.load_of (h count (by omega)))]
    refine congrArg Except.ok ?_
    funext i
    rw [Function.update_apply]
    by_cases hi : i = count
    · simp [hi]
    · by_cases hlt : i < count
      · simp [hi, hlt, Nat.lt_succ_of_lt hlt]
      · have hge : ¬ i < count + 1 := by omega
        simp [hi, hlt, hge]

theorem World.storeBuffer_page {virt page count : Nat} (h : w.Page virt page)
    (hcount : count ≤ 4096) (buffer : Nat → Nat) : w.storeBuffer virt count buffer =
      .ok { w with bytes := fun x =>
        if page ≤ x ∧ x < page + count then buffer (x - page) else w.bytes x } := by
  induction count with
  | zero =>
    have hnone : ∀ x, ¬ (page ≤ x ∧ x < page + 0) := by omega
    simp only [storeBuffer, List.range_zero, List.foldlM_nil, pure, Except.pure, hnone, if_false]
  | succ count ih =>
    have hbefore := ih (by omega)
    unfold storeBuffer at hbefore ⊢
    rw [List.range_succ, foldlM_snoc, bind_of_ok hbefore]
    have hphysical : World.physical { w with bytes := fun x =>
        if page ≤ x ∧ x < page + count then buffer (x - page) else w.bytes x }
        (wrap (virt + count)) = .ok (page + count) := h count (by omega)
    rw [World.store_of hphysical]
    refine congrArg (fun bytes => Except.ok { w with bytes := bytes }) (funext fun x => ?_)
    simp only [Function.update_apply]
    by_cases hx : x = page + count
    · simp [hx]
    · by_cases hin : page ≤ x ∧ x < page + count
      · have hin' : page ≤ x ∧ x < page + (count + 1) := by omega
        rw [if_neg hx, if_pos hin, if_pos hin']
      · have hout : ¬ (page ≤ x ∧ x < page + (count + 1)) := by omega
        rw [if_neg hx, if_neg hin, if_neg hout]

/-- Stores to addresses that are mapped only change the bytes of memory. -/
theorem World.storeBuffer_ok (w : World) (virt count : Nat)
    (h : ∀ i < count, w.walk w.mmu.currentApplicationTable (wrap (virt + i)) ≠ none)
    (buffer : Nat → Nat) :
    ∃ bytes, w.storeBuffer virt count buffer = .ok { w with bytes := bytes } := by
  have hloop := foldlM_except (f := fun w i => World.store w (wrap (virt + i)) (buffer i))
    (s := w) (l := List.range count) (I := fun _ t => ∃ bytes, t = { w with bytes := bytes })
    (E := fun _ => False) ⟨w.bytes, rfl⟩ fun done i t ⟨rest, hsplit⟩ ⟨bytes, ht⟩ => by
      have hi : i < count := by
        rw [← List.mem_range, hsplit]
        simp
      obtain ⟨page, hpage⟩ := Option.ne_none_iff_exists'.mp (h i hi)
      have hphysical : World.physical t (wrap (virt + i)) =
          .ok (page + wrap (virt + i) % 4096) := by
        rw [ht]
        exact World.physical_of hpage
      refine .inl ⟨_, World.store_of hphysical, ?_⟩
      rw [ht]
      exact ⟨_, rfl⟩
  obtain ⟨t, ht, bytes, rfl⟩ | ⟨_, -, hfalse⟩ := hloop
  · exact ⟨bytes, ht⟩
  · exact hfalse.elim

/-! ## Copying pages -/

/-- The byte that a table translates an address to. -/
def World.read (w : World) (table virt : Nat) : Option Nat :=
  (w.walk table virt).map fun page => w.bytes (page + virt % 4096)

@[simp] theorem World.setApplicationTable_current (w : World) (table pid : Nat) :
    (w.setApplicationTable translate table pid).mmu.currentApplicationTable = table :=
  WagtailMmu.setApplicationTable_current ..

/-- The copy of one page: the bytes of the parent's page are in the child's, and nothing else
changes. -/
theorem copyPage_spec (heap : HeapPages translate new)
    (hw : Sound translate new w.tables w.memory) {parent child : Process} (buffer : Nat → Nat)
    {address source target : Nat} (halign : address % 4096 = 0) (hlt : address < 2 ^ 32)
    (hsource : w.walk parent.translationTable address = some source)
    (htarget : w.walk child.translationTable address = some target) :
    ∃ buffer' mmu, copyPage translate parent child (w, buffer) address =
      .ok ({ w with
        mmu := mmu
        bytes := fun x => if target ≤ x ∧ x < target + 4096 then w.bytes (source + (x - target))
          else w.bytes x }, buffer') := by
  set w₁ : World := w.setApplicationTable translate parent.translationTable parent.pid with hw₁
  set w₂ : World := w₁.setApplicationTable translate child.translationTable child.pid with hw₂
  have hcurrent₁ : w₁.mmu.currentApplicationTable = parent.translationTable :=
    World.setApplicationTable_current ..
  have hcurrent₂ : w₂.mmu.currentApplicationTable = child.translationTable :=
    World.setApplicationTable_current ..
  have hpage₁ : w₁.Page address source :=
    World.page_of heap (w := w₁) hw halign hlt (by rw [hcurrent₁]; exact hsource)
  have hpage₂ : w₂.Page address target :=
    World.page_of heap (w := w₂) hw halign hlt (by rw [hcurrent₂]; exact htarget)
  set buffer' : Nat → Nat := fun i => if i < 4096 then w.bytes (source + i) else buffer i
    with hbuffer'
  have hload : w₁.loadBuffer address 4096 buffer = .ok buffer' :=
    World.loadBuffer_page hpage₁ le_rfl buffer
  have hstore := World.storeBuffer_page hpage₂ le_rfl buffer'
  refine ⟨buffer', w₂.mmu, ?_⟩
  simp only [copyPage, ← hw₁, ← hw₂, hload, hstore, bind, Except.bind]
  refine congrArg (fun bytes => Except.ok ({ w₂ with bytes := bytes }, buffer'))
    (funext fun x => ?_)
  by_cases hx : target ≤ x ∧ x < target + 4096
  · have hlow : x - target < 4096 := by omega
    simp only [if_pos hx, hbuffer', if_pos hlow]
  · simp only [if_neg hx]
    rfl

/-- The pages at the addresses have been copied. -/
structure Copied (w : World) (parent child : Nat) (addresses : List Nat) (t : World) : Prop where
  tables : t.tables = w.tables
  memory : t.memory = w.memory
  same : ∀ v, (∃ a ∈ addresses, a / 4096 = v / 4096) → t.read child v = w.read parent v
  others : ∀ x, (∀ v page, w.walk child v = some page → ¬ (page ≤ x ∧ x < page + 4096)) →
    t.bytes x = w.bytes x

/-- The child has pages of its own. -/
structure Apart (w : World) (parent child : Nat) : Prop where
  shared : ∀ v v' page, w.walk child v = some page → w.walk parent v' ≠ some page
  unique : ∀ v v' page, w.walk child v = some page → w.walk child v' = some page →
    v / 4096 = v' / 4096

/-- Pages that are aligned are the same or do not overlap. -/
theorem page_disjoint {page page' x : Nat} (h : page % 4096 = 0) (h' : page' % 4096 = 0)
    (hx : page ≤ x ∧ x < page + 4096) (hx' : page' ≤ x ∧ x < page' + 4096) : page = page' := by
  omega

theorem Copied.snoc (heap : HeapPages translate new) {t : World} {parent child : Process}
    {addresses : List Nat} (buffer : Nat → Nat) {a source target : Nat}
    (hw : Sound translate new w.tables w.memory)
    (hapart : Apart w parent.translationTable child.translationTable)
    (h : Copied w parent.translationTable child.translationTable addresses t)
    (halign : a % 4096 = 0) (hlt : a < 2 ^ 32)
    (hsource : w.walk parent.translationTable a = some source)
    (htarget : w.walk child.translationTable a = some target) :
    ∃ u buffer', copyPage translate parent child (t, buffer) a = .ok (u, buffer') ∧
      Copied w parent.translationTable child.translationTable (addresses ++ [a]) u := by
  have hwalk := walk_congr h.tables h.memory
  obtain ⟨buffer', mmu, hcopy⟩ := copyPage_spec heap (w := t)
    (h.tables ▸ h.memory ▸ hw) buffer halign hlt ((hwalk _ _).trans hsource)
    ((hwalk _ _).trans htarget)
  set u : World := { t with
    mmu := mmu
    bytes := fun x => if target ≤ x ∧ x < target + 4096 then t.bytes (source + (x - target))
      else t.bytes x } with hu
  have hbytes : ∀ x, u.bytes x =
      if target ≤ x ∧ x < target + 4096 then t.bytes (source + (x - target)) else t.bytes x :=
    fun x => rfl
  refine ⟨u, buffer', hcopy, h.tables, h.memory, fun v hv => ?_, fun x hx => ?_⟩
  · have hread : u.read child.translationTable v =
        (w.walk child.translationTable v).map fun page => u.bytes (page + v % 4096) :=
      congrArg _ (hwalk child.translationTable v)
    have hlow := Nat.mod_lt v (show 0 < 4096 by decide)
    by_cases hlast : a / 4096 = v / 4096
    · -- the page that is copied: its source is none of the child's pages
      have hchild : w.walk child.translationTable v = some target :=
        (walk_page heap hw hlast).symm.trans htarget
      have hparent : w.walk parent.translationTable v = some source :=
        (walk_page heap hw hlast).symm.trans hsource
      have hin : target ≤ target + v % 4096 ∧ target + v % 4096 < target + 4096 := by omega
      have hsame : t.bytes (source + v % 4096) = w.bytes (source + v % 4096) := by
        refine h.others _ fun v' page hpage hcover => ?_
        have hwhole : source ≤ source + v % 4096 ∧ source + v % 4096 < source + 4096 := by omega
        obtain rfl := page_disjoint (walk_aligned hpage).1 (walk_aligned hsource).1 hcover hwhole
        exact hapart.shared v' a page hpage hsource
      rw [hread, World.read, hchild, hparent, Option.map_some, Option.map_some, hbytes,
        if_pos hin, Nat.add_sub_cancel_left, hsame]
    · -- another one, which is not overwritten
      have hbefore : ∃ b ∈ addresses, b / 4096 = v / 4096 := by
        obtain ⟨b, hb, hbv⟩ := hv
        cases List.mem_append.mp hb with
        | inl hb => exact ⟨b, hb, hbv⟩
        | inr hb => exact absurd (List.mem_singleton.mp hb ▸ hbv) hlast
      rw [← h.same v hbefore, hread, World.read, hwalk]
      cases hpage : w.walk child.translationTable v with
      | none => rfl
      | some page =>
        have hout : ¬ (target ≤ page + v % 4096 ∧ page + v % 4096 < target + 4096) := by
          intro hcover
          have hwhole : page ≤ page + v % 4096 ∧ page + v % 4096 < page + 4096 := by omega
          obtain rfl := page_disjoint (walk_aligned htarget).1 (walk_aligned hpage).1 hcover hwhole
          exact hlast (hapart.unique a v target htarget hpage)
        rw [Option.map_some, Option.map_some, hbytes, if_neg hout]
  · rw [hbytes, if_neg (hx a target htarget)]
    exact h.others x hx

/-- The loops copy everything that both tables map. -/
theorem copyAll_spec (heap : HeapPages translate new) {parent child : Process}
    {addresses : List Nat} (buffer : Nat → Nat) (hw : Sound translate new w.tables w.memory)
    (hapart : Apart w parent.translationTable child.translationTable)
    (haddresses : ∀ a ∈ addresses, a % 4096 = 0 ∧ a < 2 ^ 32 ∧
      w.walk parent.translationTable a ≠ none ∧ w.walk child.translationTable a ≠ none) :
    ∃ t buffer', addresses.foldlM (copyPage translate parent child) (w, buffer) =
      .ok (t, buffer') ∧
      Copied w parent.translationTable child.translationTable addresses t := by
  have hloop := foldlM_except (f := copyPage translate parent child) (s := (w, buffer))
    (l := addresses) (I := fun done s =>
      Copied w parent.translationTable child.translationTable done s.1) (E := fun _ => False)
    ⟨rfl, rfl, by simp, fun _ _ => rfl⟩ fun done a s ⟨rest, hsplit⟩ hdone => by
      obtain ⟨halign, hlt, hparent, hchild⟩ := haddresses a (by simp [hsplit])
      obtain ⟨source, hsource⟩ := Option.ne_none_iff_exists'.mp hparent
      obtain ⟨target, htarget⟩ := Option.ne_none_iff_exists'.mp hchild
      obtain ⟨u, buffer', hcopy, hcopied⟩ :=
        hdone.snoc heap s.2 hw hapart halign hlt hsource htarget
      exact .inl ⟨(u, buffer'), hcopy, hcopied⟩
  obtain ⟨⟨t, buffer'⟩, ht, hcopied⟩ | ⟨_, -, hfalse⟩ := hloop
  · exact ⟨t, buffer', ht, hcopied⟩
  · exact hfalse.elim

/-- The loops never abort, also if the child has null pages. -/
theorem copyAll_ok (heap : HeapPages translate new) {parent child : Process}
    {addresses : List Nat} (buffer : Nat → Nat) (hw : Sound translate new w.tables w.memory)
    (haddresses : ∀ a ∈ addresses, a % 4096 = 0 ∧ a < 2 ^ 32 ∧
      w.walk parent.translationTable a ≠ none ∧ w.walk child.translationTable a ≠ none) :
    ∃ t buffer', addresses.foldlM (copyPage translate parent child) (w, buffer) =
      .ok (t, buffer') ∧ t.tables = w.tables ∧ t.memory = w.memory ∧
      t.dataAborts = w.dataAborts := by
  have hloop := foldlM_except (f := copyPage translate parent child) (s := (w, buffer))
    (l := addresses) (I := fun _ s => s.1.tables = w.tables ∧ s.1.memory = w.memory ∧
      s.1.dataAborts = w.dataAborts)
    (E := fun _ => False) ⟨rfl, rfl, rfl⟩
    fun done a s ⟨rest, hsplit⟩ ⟨htables, hmemory, hquiet⟩ => by
      obtain ⟨halign, hlt, hparent, hchild⟩ := haddresses a (by simp [hsplit])
      have hwalk := walk_congr htables hmemory
      obtain ⟨source, hsource⟩ := Option.ne_none_iff_exists'.mp hparent
      obtain ⟨target, htarget⟩ := Option.ne_none_iff_exists'.mp hchild
      obtain ⟨buffer', mmu, hcopy⟩ := copyPage_spec heap (w := s.1) (htables ▸ hmemory ▸ hw) s.2
        halign hlt ((hwalk _ _).trans hsource) ((hwalk _ _).trans htarget)
      exact .inl ⟨_, hcopy, htables, hmemory, hquiet⟩
  obtain ⟨⟨t, buffer'⟩, ht, hsame⟩ | ⟨_, -, hfalse⟩ := hloop
  · exact ⟨t, buffer', ht, hsame⟩
  · exact hfalse.elim

/-! ## The constructors -/

section

variable {c d s : Nat}

/-- The sections are in user memory if all their addresses are in the table. -/
theorem inUser_of_inRange (h : InRange (requests c d s)) : InUser c d s := by
  constructor
  · by_contra hnot
    by_cases hc : 0x80000 ≤ c
    · have hr := h ⟨wrap (0x1000 + 4096 * 0x7ffff), .rwRo, .code⟩ (by
        simp only [requests, codeRequests, List.mem_append, List.mem_map, List.mem_range]
        exact .inl (.inl ⟨0x7ffff, by omega, rfl⟩))
      exact absurd hr (by decide)
    · have hr := h ⟨wrap (0x1000 + 4096 * 0x7ffff), .rwRw, .data⟩ (by
        simp only [requests, dataRequests, List.mem_append, List.mem_map, List.mem_range]
        refine .inl (.inr ⟨0x7ffff - c, by omega, ?_⟩)
        rw [Nat.add_sub_cancel' (by omega)])
      exact absurd hr (by decide)
  · by_contra hnot
    have hr := h ⟨sub (0x80000000 - 4096) (wrap (4096 * 0x80000)), .rwRw, .stack⟩ (by
      simp only [requests, stackRequests, List.mem_append, List.mem_map, List.mem_range]
      exact .inr ⟨0x80000, by omega, rfl⟩)
    exact absurd hr (by decide)

/-- The addresses that the copy constructor goes through. -/
def copyAddresses (c d s : Nat) : List Nat :=
  (List.range (c + d)).map (fun i => wrap (0x1000 + 4096 * i)) ++
    (List.range s).map fun i => wrap (sub 0x80000000 (wrap (s * 4096)) + 4096 * i)

/-- They are the pages of the process. -/
theorem copyAddresses_spec (h : InUser c d s) :
    (∀ a ∈ copyAddresses c d s, a % 4096 = 0 ∧ a < 2 ^ 32 ∧ Requested (requests c d s) a) ∧
    ∀ v, Requested (requests c d s) v → ∃ a ∈ copyAddresses c d s, a / 4096 = v / 4096 := by
  have hiff := requested_iff h
  obtain ⟨hcd, hs⟩ := h
  have hwrap : wrap (s * 4096) = s * 4096 := wrap_of_lt (by omega)
  have hsub : sub 0x80000000 (s * 4096) = 0x80000000 - s * 4096 := sub_of_le (by omega) (by decide)
  simp only [copyAddresses, hwrap, hsub, List.mem_append, List.mem_map, List.mem_range]
  constructor
  · rintro a (⟨i, hi, rfl⟩ | ⟨i, hi, rfl⟩)
    · rw [wrap_of_lt (by omega), hiff]
      omega
    · rw [wrap_of_lt (by omega), hiff]
      omega
  · intro v hv
    obtain ⟨hlow, hhigh⟩ | ⟨hlow, hhigh⟩ := (hiff v).mp hv
    · refine ⟨_, .inl ⟨v / 4096 - 1, by omega, rfl⟩, ?_⟩
      rw [wrap_of_lt (by omega)]
      omega
    · refine ⟨_, .inr ⟨v / 4096 - (0x80000 - s), by omega, rfl⟩, ?_⟩
      rw [wrap_of_lt (by omega)]
      omega

end

/-- The address space is set up unless the heap has no memory for a page table. -/
theorem setup_spec (heap : HeapPages translate new) (hw : Valid translate new w)
    (hnone : ∀ v, w.walk table v = none) (pid : Nat) (proc : Process)
    (hproc : proc.translationTable = table) (hrange : InRange proc.requests) :
    (∃ t, setupAddrspace translate new (newProcess w table pid).1 proc = .ok (t, { proc with
        programBreak := wrap (0x1000 + proc.codePages * 0x1000 + proc.dataPages * 0x1000) }) ∧
      proc.requests.foldlM (mapNew translate new table) (newProcess w table pid).1 = .ok t ∧
      Grown translate new table (newProcess w table pid).1 proc.requests t) ∨
    proc.requests.foldlM (mapNew translate new table) (newProcess w table pid).1 =
      .error .allocation ∧
    setupAddrspace translate new (newProcess w table pid).1 proc = .error .allocation := by
  rw [setupAddrspace_eq, hproc]
  obtain ⟨t, ht, hgrown⟩ | herror :=
    mapAll_spec heap (newProcess_valid heap hw hnone pid).1 table hrange
  · exact .inl ⟨t, by rw [ht]; rfl, ht, hgrown⟩
  · exact .inr ⟨herror, by rw [herror]; rfl⟩

/-- Where the requests are met the table maps what is requested, and the other tables are as they
were. -/
theorem Grown.domain {rs : List Request} (h : Grown translate new table w rs u)
    (hnone : ∀ v, w.walk table v = none) (v : Nat) :
    u.walk table v ≠ none ↔ Requested rs v := by
  constructor
  · intro hv
    by_contra hnot
    rw [h.others table v fun hcond => hnot hcond.2] at hv
    exact hv (hnone v)
  · intro hv
    obtain ⟨page, hpage, -⟩ := h.mapped v hv
    simp [hpage]

/-- A page of the pool that is mapped is held there. -/
theorem held_of_walk (heap : HeapPages translate new) (hw : Sound translate new w.tables w.memory)
    {q v page : Nat} (h : w.walk q v = some page) (hne : page ≠ 0) :
    w.held (q, v / 4096) = some page := by
  have hpage : 4096 * (v / 4096) / 4096 = v / 4096 := Nat.mul_div_cancel_left _ (by decide)
  rw [World.held, walk_page heap hw hpage, h]
  simp [Option.filter, hne]

/-- With enough pages the new ones were all on the stack. -/
theorem Grown.fresh {rs : List Request} (h : Grown translate new table w rs u)
    (hnone : ∀ v, w.walk table v = none) (henough : rs.length ≤ w.free.length) {v page : Nat}
    (hpage : u.walk table v = some page) : page ∈ w.free := by
  have hsome : u.walk table v ≠ none := by simp [hpage]
  obtain ⟨page', hpage', hwhere⟩ := h.mapped v ((h.domain hnone v).mp hsome)
  obtain rfl := Option.some.inj (hpage.symm.trans hpage')
  exact hwhere.resolve_right fun hcond => absurd hcond.2 (by omega)

/-- No two pages that the table maps are the same. -/
def World.Unshared (w : World) (table : Nat) : Prop :=
  ∀ v v' page, w.walk table v = some page → w.walk table v' = some page → v / 4096 = v' / 4096

theorem Grown.unshared (heap : HeapPages translate new) (hw : Valid translate new w)
    {rs : List Request} (h : Grown translate new table w rs u)
    (hnone : ∀ v, w.walk table v = none) (henough : rs.length ≤ w.free.length) :
    u.Unshared table := by
  intro v v' page hpage hpage'
  have hne := (hw.address page (h.fresh hnone henough hpage)).1
  have hsame := h.valid.exclusive.unique _ _ page (held_of_walk heap h.valid.sound hpage hne)
    (held_of_walk heap h.valid.sound hpage' hne)
  exact (Prod.mk.inj hsame).2

/-- They are not shared with another table. -/
theorem Grown.apart (heap : HeapPages translate new) (hw : Valid translate new w)
    {rs : List Request} (h : Grown translate new table w rs u)
    (hnone : ∀ v, w.walk table v = none) (henough : rs.length ≤ w.free.length) {q : Nat}
    (hq : q ≠ table) : Apart u q table where
  shared := by
    intro v v' page hpage hother
    have hmem := h.fresh hnone henough hpage
    rw [h.others q v' fun hcond => hq hcond.1] at hother
    exact hw.exclusive.apart page hmem _
      (held_of_walk heap hw.sound hother (hw.address page hmem).1)
  unique := h.unshared heap hw hnone henough

/-- A copy that is given a page for each page of its parent: it has the same pages and bytes, in
memory that no other table maps, and the other address spaces are as they were. -/
structure CopyOf (w : World) (parent : Process) (u : World) (child : Process) : Prop where
  distinct : parent.translationTable ≠ child.translationTable
  mapped : ∀ v, u.walk child.translationTable v ≠ none ↔ w.walk parent.translationTable v ≠ none
  bytes : ∀ v, u.read child.translationTable v = w.read parent.translationTable v
  unchanged : ∀ q, q ≠ child.translationTable → ∀ v,
    u.walk q v = w.walk q v ∧ u.read q v = w.read q v
  apart : ∀ q, q ≠ child.translationTable → ∀ v v' page,
    u.walk child.translationTable v = some page → u.walk q v' ≠ some page
  registers : child.registers = parent.registers
  usable : child.usable = true

theorem processFromParent_eq (w : World) (table pid : Nat) (parent : Process) :
    processFromParent translate new w table pid parent =
      setupAddrspace translate new (newProcess w table pid).1
        { (newProcess w table pid).2 with
          registers := copyRegisters parent.registers
          codePages := parent.codePages
          dataPages := parent.dataPages
          stackPages := parent.stackPages } >>= fun s =>
      (copyAddresses s.2.codePages s.2.dataPages s.2.stackPages).foldlM
        (copyPage translate parent s.2) (s.1, fun _ => 0) >>= fun t =>
      Except.ok (t.1, { s.2 with usable := true }) := by
  simp only [processFromParent, copyAddresses, List.foldlM_append, bind_assoc]

/-- What the copy loops leave behind. -/
theorem Copied.copyOf (heap : HeapPages translate new) (hw : Valid translate new w) {t : World}
    {parent child : Process} (hnone : ∀ v, w.walk child.translationTable v = none)
    (hparent : ∀ v, w.walk parent.translationTable v ≠ none ↔ Requested parent.requests v)
    (hne : parent.translationTable ≠ child.translationTable)
    (henough : parent.requests.length ≤ w.free.length)
    (hgrown : Grown translate new child.translationTable w parent.requests t)
    (hcopied : Copied t parent.translationTable child.translationTable
      (copyAddresses parent.codePages parent.dataPages parent.stackPages) u)
    (hcover : ∀ v, Requested parent.requests v →
      ∃ a ∈ copyAddresses parent.codePages parent.dataPages parent.stackPages, a / 4096 = v / 4096)
    (hregisters : child.registers = parent.registers) (husable : child.usable = true) :
    CopyOf w parent u child := by
  have hwalk := walk_congr hcopied.tables hcopied.memory
  have hother : ∀ q, q ≠ child.translationTable → ∀ v, t.walk q v = w.walk q v :=
    fun q hq v => hgrown.others q v fun hcond => hq hcond.1
  have hread : ∀ q, q ≠ child.translationTable → ∀ v, t.read q v = w.read q v := by
    intro q hq v
    rw [World.read, World.read, hother q hq, hgrown.bytes]
  have hdomain := hgrown.domain hnone
  refine ⟨hne, fun v => ?_, fun v => ?_, fun q hq v => ⟨?_, ?_⟩, fun q hq v v' page hpage => ?_,
    hregisters, husable⟩
  · rw [hwalk, hdomain, hparent]
  · by_cases hv : Requested parent.requests v
    · rw [hcopied.same v (hcover v hv), hread _ hne]
    · have hchild : t.walk child.translationTable v = none := by
        by_contra hsome
        exact hv ((hdomain v).mp hsome)
      have hnoparent : w.walk parent.translationTable v = none := by
        by_contra hsome
        exact hv ((hparent v).mp hsome)
      rw [World.read, World.read, hwalk, hchild, hnoparent]
      rfl
  · rw [hwalk, hother q hq]
  · rw [← hread q hq, World.read, World.read, hwalk]
    cases hpage : t.walk q v with
    | none => rfl
    | some page =>
      rw [Option.map_some, Option.map_some, hcopied.others]
      intro v' target htarget hcovers
      have hlow := Nat.mod_lt v (show 0 < 4096 by decide)
      have hwhole : page ≤ page + v % 4096 ∧ page + v % 4096 < page + 4096 := by omega
      obtain rfl := page_disjoint (walk_aligned htarget).1 (walk_aligned hpage).1 hcovers hwhole
      exact (hgrown.apart heap hw hnone henough hq).shared v' v target htarget hpage
  · rw [hwalk] at hpage ⊢
    exact (hgrown.apart heap hw hnone henough hq).shared v v' page hpage

/-- The copying constructor makes a process unless the heap has no memory for a page table, and a
copy if there are enough pages. -/
theorem processFromParent_spec (heap : HeapPages translate new) (hw : Valid translate new w)
    {parent : Process} (hnone : ∀ v, w.walk table v = none) (pid : Nat)
    (hparent : ∀ v, w.walk parent.translationTable v ≠ none ↔ Requested parent.requests v)
    (hne : parent.translationTable ≠ table) :
    (∃ u child, processFromParent translate new w table pid parent = .ok (u, child) ∧
      Built translate new w table pid parent.codePages parent.dataPages parent.stackPages u child ∧
      (parent.requests.length ≤ w.free.length → CopyOf w parent u child)) ∨
    parent.requests.foldlM (mapNew translate new table) (newProcess w table pid).1 =
      .error .allocation ∧
    processFromParent translate new w table pid parent = .error .allocation := by
  obtain ⟨hw₀, hwalk₀⟩ := newProcess_valid heap hw hnone pid
  set w₀ : World := (newProcess w table pid).1 with hw₀_eq
  have hread₀ : ∀ q v, w₀.read q v = w.read q v := by
    intro q v
    rw [World.read, World.read, hwalk₀]
    rfl
  have hrange : InRange parent.requests := by
    intro r hr
    have hsome : w.walk parent.translationTable r.address ≠ none := (hparent _).mpr ⟨r, hr, rfl⟩
    by_contra hout
    apply hsome
    simp [World.walk, WagtailMmu.walk, descriptor, hout]
  obtain ⟨haddresses, hcover⟩ := copyAddresses_spec (inUser_of_inRange hrange)
  set blank : Process := { (newProcess w table pid).2 with
    registers := copyRegisters parent.registers
    codePages := parent.codePages
    dataPages := parent.dataPages
    stackPages := parent.stackPages } with hblank
  obtain ⟨t, hsetup, ht, hgrown⟩ | ⟨hcause, herror⟩ :=
    setup_spec heap hw hnone pid blank rfl hrange
  · set child : Process := { blank with
      programBreak := wrap (0x1000 + blank.codePages * 0x1000 + blank.dataPages * 0x1000) }
      with hchild
    have hdomain := hgrown.domain fun v => (hwalk₀ table v).trans (hnone v)
    have hmapped : ∀ a ∈ copyAddresses child.codePages child.dataPages child.stackPages,
        a % 4096 = 0 ∧ a < 2 ^ 32 ∧ t.walk parent.translationTable a ≠ none ∧
          t.walk child.translationTable a ≠ none := by
      intro a ha
      obtain ⟨halign, hlt, hrequested⟩ := haddresses a ha
      refine ⟨halign, hlt, ?_, (hdomain a).mpr hrequested⟩
      rw [hgrown.others _ _ fun hcond => hne hcond.1, hwalk₀]
      exact (hparent a).mpr hrequested
    obtain ⟨u, buffer', hu, htables, hmemory, hquiet⟩ :=
      copyAll_ok heap (fun _ => 0) hgrown.valid.sound hmapped
    have hbuilt : Built translate new w table pid parent.codePages parent.dataPages
        parent.stackPages u { child with usable := true } :=
      ⟨⟨rfl, rfl, rfl, rfl, rfl, rfl⟩, ⟨t, ht, hgrown, htables, hmemory⟩,
        hquiet.trans hgrown.dataAborts⟩
    refine .inl ⟨u, { child with usable := true }, ?_, hbuilt, fun henough => ?_⟩
    · rw [processFromParent_eq, hsetup]
      change (List.foldlM (copyPage translate parent child) (t, fun _ => 0)
        (copyAddresses child.codePages child.dataPages child.stackPages) >>= _) = _
      rw [hu]
      rfl
    · obtain ⟨u', buffer'', hu', hcopied⟩ := copyAll_spec heap (fun _ => 0) hgrown.valid.sound
        (hgrown.apart heap hw₀ (fun v => (hwalk₀ table v).trans (hnone v)) henough hne) hmapped
      obtain ⟨rfl, -⟩ := Prod.mk.inj (Except.ok.inj (hu.symm.trans hu'))
      have hcopy : CopyOf w₀ parent u { child with usable := true } :=
        hcopied.copyOf heap hw₀ (fun v => (hwalk₀ table v).trans (hnone v))
          (fun v => by rw [hwalk₀]; exact hparent v) hne henough hgrown hcover rfl rfl
      refine ⟨hcopy.distinct, fun v => ?_, fun v => ?_, fun q hq v => ?_, hcopy.apart, rfl, rfl⟩
      · rw [hcopy.mapped, hwalk₀]
      · rw [hcopy.bytes, hread₀]
      · rw [← hwalk₀ q v, ← hread₀ q v]
        exact hcopy.unchanged q hq v
  · exact .inr ⟨hcause, by rw [processFromParent_eq, herror]; rfl⟩

/-! ## Executables -/

/-- What a linker makes: the data starts at a page boundary, and everything is below the stack. -/
structure Header.WellFormed (h : Header) : Prop where
  aligned : h.dataStart % 4096 = 0
  code : 0x1000 < h.dataStart
  data : h.dataStart ≤ h.bssStart
  bss : h.bssStart ≤ h.applicationEnd
  room : h.applicationEnd ≤ 0x80000000 - defaultStackSize

theorem Header.WellFormed.pages {h : Header} (hh : h.WellFormed) :
    h.codePages = h.dataStart / 4096 - 1 ∧
    h.codePages + h.dataPages = (h.applicationEnd + 4095) / 4096 - 1 := by
  obtain ⟨haligned, hcode, hdata, hbss, hroom⟩ := hh
  have hroom : h.applicationEnd ≤ 0x80000000 - 0x4000 := hroom
  have hstart : sub h.dataStart 0x1000 = h.dataStart - 0x1000 := sub_of_le (by omega) (by omega)
  have hc : h.codePages = h.dataStart / 4096 - 1 := by
    rw [codePages, hstart, Nat.shiftRight_eq_div_pow]
    omega
  have hmask : wrap (h.applicationEnd + 4095) &&& maskLeft 4096 =
      (h.applicationEnd + 4095) / 4096 * 4096 := by
    rw [wrap_of_lt (by omega)]
    exact WagtailHeap.and_maskLeft (k := 12) (by decide) (by omega)
  have hshift : wrap (h.codePages <<< 12) = h.codePages * 4096 := by
    rw [Nat.shiftLeft_eq, wrap_of_lt (by omega)]
  have hbehind : sub ((h.applicationEnd + 4095) / 4096 * 4096) (h.codePages * 4096) =
      (h.applicationEnd + 4095) / 4096 * 4096 - h.codePages * 4096 :=
    sub_of_le (by omega) (by omega)
  have hd : h.dataPages = (h.applicationEnd + 4095) / 4096 - h.codePages - 1 := by
    rw [dataPages, hmask, hshift, hbehind, sub_of_le (by omega) (by omega),
      Nat.shiftRight_eq_div_pow]
    omega
  omega

/-- The pages of an executable with its stack fit in user memory without overlap. -/
theorem Header.WellFormed.fits {h : Header} (hh : h.WellFormed) :
    0 < h.codePages ∧ 1 + h.codePages + h.dataPages + stackPagesDefault ≤ 0x80000 := by
  obtain ⟨hc, hcd⟩ := hh.pages
  obtain ⟨haligned, hcode, hdata, hbss, hroom⟩ := hh
  have hroom : h.applicationEnd ≤ 0x80000000 - 0x4000 := hroom
  have hstack : stackPagesDefault = 4 := rfl
  omega

theorem processFromBuffer_eq (w : World) (table pid : Nat) (header : Header)
    (buffer : Nat → Nat) : processFromBuffer translate new w table pid header buffer =
      setupAddrspace translate new (newProcess w table pid).1
        { (newProcess w table pid).2 with
          codePages := header.codePages
          dataPages := header.dataPages
          stackPages := stackPagesDefault } >>= fun s =>
      (s.1.setApplicationTable translate s.2.translationTable s.2.pid).storeBuffer 0x1000
        (sub header.dataStart 0x1000) buffer >>= fun w =>
      w.storeBuffer (wrap (0x1000 + s.2.codePages * 0x1000))
        (sub header.bssStart header.dataStart)
        (fun i => buffer (i + s.2.codePages * 0x1000)) >>= fun w =>
      Except.ok (w, { s.2 with
        registers := { s.2.registers with r := Function.update s.2.registers.r sp 0x80000000 }
        usable := true }) := rfl

/-- The steps of the constructor. -/
theorem processFromBuffer_of {pid : Nat} {header : Header} {buffer : Nat → Nat} {t t' : World}
    {proc : Process}
    (hsetup : setupAddrspace translate new (newProcess w table pid).1
      { (newProcess w table pid).2 with
        codePages := header.codePages
        dataPages := header.dataPages
        stackPages := stackPagesDefault } = .ok (t, proc))
    (hfirst : (t.setApplicationTable translate proc.translationTable proc.pid).storeBuffer 0x1000
      (sub header.dataStart 0x1000) buffer = .ok t')
    (hsecond : t'.storeBuffer (wrap (0x1000 + proc.codePages * 0x1000))
      (sub header.bssStart header.dataStart)
      (fun i => buffer (i + proc.codePages * 0x1000)) = .ok u) :
    processFromBuffer translate new w table pid header buffer = .ok (u, { proc with
      registers := { proc.registers with r := Function.update proc.registers.r sp 0x80000000 }
      usable := true }) := by
  rw [processFromBuffer_eq, bind_of_ok hsetup]
  dsimp only
  rw [bind_of_ok hfirst, bind_of_ok hsecond]

/-- The constructor makes a process of every well-formed executable unless the heap has no memory
for a page table. -/
theorem processFromBuffer_spec (heap : HeapPages translate new) (hw : Valid translate new w)
    (hnone : ∀ v, w.walk table v = none) (pid : Nat) {header : Header} (hh : header.WellFormed)
    (buffer : Nat → Nat) :
    (∃ u proc, processFromBuffer translate new w table pid header buffer = .ok (u, proc) ∧
      Built translate new w table pid header.codePages header.dataPages stackPagesDefault u proc) ∨
    (requests header.codePages header.dataPages stackPagesDefault).foldlM
      (mapNew translate new table) (newProcess w table pid).1 = .error .allocation ∧
    processFromBuffer translate new w table pid header buffer = .error .allocation := by
  obtain ⟨hw₀, hwalk₀⟩ := newProcess_valid heap hw hnone pid
  obtain ⟨hcode, hroom⟩ := hh.fits
  have hinUser : InUser header.codePages header.dataPages stackPagesDefault := by
    have hstack : stackPagesDefault = 4 := rfl
    exact ⟨by omega, by omega⟩
  set blank : Process := { (newProcess w table pid).2 with
    codePages := header.codePages
    dataPages := header.dataPages
    stackPages := stackPagesDefault } with hblank
  obtain ⟨t, hsetup, ht, hgrown⟩ | ⟨hcause, herror⟩ :=
    setup_spec heap hw hnone pid blank rfl (requests_inRange hinUser)
  · have hdomain := hgrown.domain fun v => (hwalk₀ table v).trans (hnone v)
    have hmapped : ∀ v, 1 ≤ v / 4096 → v / 4096 < 1 + header.codePages + header.dataPages →
        t.walk table v ≠ none := by
      intro v hlow hhigh
      exact (hdomain v).mpr ((requested_iff hinUser v).mpr (.inl ⟨hlow, hhigh⟩))
    obtain ⟨hc, hcd⟩ := hh.pages
    obtain ⟨haligned, hstart, hdata, hbss, hlast⟩ := hh
    have hlast : header.applicationEnd ≤ 0x80000000 - 0x4000 := hlast
    have hcount : sub header.dataStart 0x1000 = header.dataStart - 0x1000 :=
      sub_of_le (by omega) (by omega)
    have hcount' : sub header.bssStart header.dataStart = header.bssStart - header.dataStart :=
      sub_of_le hdata (by omega)
    have hbehind : wrap (0x1000 + header.codePages * 0x1000) = header.dataStart := by
      rw [wrap_of_lt (by omega)]
      omega
    set w₁ : World := t.setApplicationTable translate table pid with hw₁
    have hcurrent : w₁.mmu.currentApplicationTable = table := World.setApplicationTable_current ..
    obtain ⟨bytes, hfirst⟩ := World.storeBuffer_ok w₁ 0x1000
      (sub header.dataStart 0x1000) (fun i hi => by
        rw [hcount] at hi
        rw [hcurrent, wrap_of_lt (by omega)]
        exact hmapped _ (by omega) (by omega)) buffer
    obtain ⟨bytes', hsecond⟩ := World.storeBuffer_ok { w₁ with bytes := bytes }
      header.dataStart (sub header.bssStart header.dataStart) (fun i hi => by
        rw [hcount'] at hi
        change w₁.walk w₁.mmu.currentApplicationTable _ ≠ none
        rw [hcurrent, wrap_of_lt (by omega)]
        exact hmapped _ (by omega) (by omega)) fun i => buffer (i + header.codePages * 0x1000)
    have hsecond : World.storeBuffer { w₁ with bytes := bytes }
        (wrap (0x1000 + header.codePages * 0x1000)) (sub header.bssStart header.dataStart)
        (fun i => buffer (i + header.codePages * 0x1000)) = .ok { w₁ with bytes := bytes' } := by
      rw [hbehind]
      exact hsecond
    exact .inl ⟨_, _, processFromBuffer_of hsetup hfirst hsecond, ⟨rfl, rfl, rfl, rfl, rfl, rfl⟩,
      ⟨t, ht, hgrown, rfl, rfl⟩, hgrown.dataAborts⟩
  · exact .inr ⟨hcause, by rw [processFromBuffer_eq, herror]; rfl⟩

end WagtailProcess
