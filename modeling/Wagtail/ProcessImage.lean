import Wagtail.Partition
import Wagtail.ProcessCopy
import Wagtail.ProcessExhaustion

/-!
# Executables in memory

What `process::process(char *)` leaves in the address space of a new process: the
bytes of the executable where its linker has put them, its pages and those of
the stack, and nothing that the process could write and then execute.
-/
namespace WagtailProcess

open Word (wrap sub wrap_of_lt sub_of_le)
open WagtailFilesystem (Buffer le32)
open WagtailHeap (maskLeft)
open WagtailMmu
open Runs (foldlM_except foldlM_snoc ok_of_bind)

variable {translate new : Nat → Nat} {w u : World} {table pid : Nat}

/-- The header at the start of the buffer, behind the jump, the signature and the version. -/
def readHeader (buffer : Buffer) : Header where
  dataStart := le32 buffer 8
  bssStart := le32 buffer 12
  applicationEnd := le32 buffer 16

/-- `process::process(char *)` of a buffer that holds these bytes. -/
def processFromImage (translate new : Nat → Nat) (w : World) (table pid : Nat) (buffer : Buffer) :
    Except Fault (World × Process) :=
  processFromBuffer translate new w table pid (readHeader buffer) fun i => (buffer i).toNat

/-! ## Bytes -/

/-- Different addresses are different bytes of memory. -/
theorem World.Unshared.ne (h : w.Unshared table) {v v' page page' : Nat}
    (hv : w.walk table v = some page) (hv' : w.walk table v' = some page') (hne : v ≠ v') :
    page + v % 4096 ≠ page' + v' % 4096 := by
  intro hsame
  have haligned := (walk_aligned hv).1
  have haligned' := (walk_aligned hv').1
  obtain rfl : page = page' := by omega
  have hpage := h v v' page hv hv'
  omega

theorem World.store_read {virt byte : Nat} (h : w.store virt byte = .ok u)
    (hcurrent : w.mmu.currentApplicationTable = table) (hmapped : w.walk table virt ≠ none)
    (hunshared : w.Unshared table) :
    (∃ bytes, u = { w with bytes := bytes }) ∧
      ∀ v, u.read table v = if v = virt then some byte else w.read table v := by
  obtain ⟨page, hpage, rfl⟩ | ⟨hunmapped, -⟩ := World.store_eq h
  on_goal 2 => exact absurd (hcurrent ▸ hunmapped) hmapped
  rw [hcurrent] at hpage
  refine ⟨⟨_, rfl⟩, fun v => ?_⟩
  change (w.walk table v).map (fun page' =>
    Function.update w.bytes (page + virt % 4096) byte (page' + v % 4096)) = _
  by_cases hv : v = virt
  · rw [if_pos hv, hv, hpage, Option.map_some, Function.update_self]
  · rw [if_neg hv, World.read]
    cases hother : w.walk table v with
    | none => rfl
    | some page' =>
      rw [Option.map_some, Option.map_some,
        Function.update_of_ne (hunshared.ne hother hpage hv)]

/-- A loop that stores a buffer leaves its bytes behind, and the others as they were. -/
theorem World.storeBuffer_read {virt count : Nat} {buffer : Nat → Nat}
    (h : w.storeBuffer virt count buffer = .ok u)
    (hcurrent : w.mmu.currentApplicationTable = table)
    (hmapped : ∀ i < count, w.walk table (virt + i) ≠ none) (hunshared : w.Unshared table)
    (hlast : virt + count ≤ 2 ^ 32) :
    (∃ bytes, u = { w with bytes := bytes }) ∧ ∀ v, u.read table v =
      if virt ≤ v ∧ v < virt + count then some (buffer (v - virt)) else w.read table v := by
  induction count generalizing u with
  | zero =>
    obtain rfl : w = u := Except.ok.inj h
    refine ⟨⟨w.bytes, rfl⟩, fun v => ?_⟩
    rw [if_neg (by omega)]
  | succ count ih =>
    unfold storeBuffer at h
    rw [List.range_succ, foldlM_snoc] at h
    obtain ⟨t, ht, hstore⟩ := ok_of_bind h
    obtain ⟨⟨bytes, rfl⟩, hread⟩ := ih ht (fun i hi => hmapped i (by omega)) (by omega)
    rw [wrap_of_lt (by omega)] at hstore
    obtain ⟨⟨bytes', rfl⟩, hread'⟩ :=
      World.store_read hstore hcurrent (hmapped count (by omega)) hunshared
    refine ⟨⟨bytes', rfl⟩, fun v => ?_⟩
    rw [hread', hread]
    by_cases hv : v = virt + count
    · rw [if_pos hv, if_pos (by omega), hv, Nat.add_sub_cancel_left]
    · rw [if_neg hv]
      by_cases hin : virt ≤ v ∧ v < virt + count
      · rw [if_pos hin, if_pos (by omega)]
      · rw [if_neg hin, if_neg (by omega)]

/-! ## Protections -/

/-- A small page that the user can write, by the bits of its entry. -/
def UserWritable (entry : Nat) : Prop :=
  entry &&& L2.SmallPage.ap2 = 0 ∧ entry &&& L2.SmallPage.ap1 ≠ 0 ∧
    entry &&& L2.SmallPage.ap0 ≠ 0
  deriving Decidable

/-- The bits below the page of an entry are the attributes. -/
theorem pageEntry_and {page mask : Nat} {r : Request} (haligned : page % 4096 = 0)
    (hmask : mask &&& 0xfff = mask) : pageEntry page r.permissions r.type false &&& mask =
      pageAttributes r.permissions r.type false &&& mask := by
  have hlow : page &&& 0xfff = 0 := (Nat.and_two_pow_sub_one_eq_mod page 12).trans haligned
  have hpage : page &&& mask = 0 := by
    rw [← hmask, Nat.and_comm mask, ← Nat.and_assoc, hlow, Nat.zero_and]
  rw [pageEntry_eq, Nat.and_or_distrib_right, hpage, Nat.zero_or]

/-- The protections of a section: what the user can write is not executed. -/
def Request.Protected (r : Request) : Prop :=
  UserWritable (pageAttributes r.permissions r.type false) →
    pageAttributes r.permissions r.type false &&& L2.SmallPage.xn ≠ 0
  deriving Decidable

theorem requests_protected {c d s : Nat} : ∀ r ∈ requests c d s, r.Protected := by
  intro r hr
  have hkind : (r.permissions, r.type) ∈ [(Permissions.rwRo, IntervalType.code),
      (.rwRw, .data), (.rwRw, .stack)] := by
    simp only [requests, codeRequests, dataRequests, stackRequests, List.mem_append,
      List.mem_map] at hr
    obtain (⟨i, -, rfl⟩ | ⟨i, -, rfl⟩) | ⟨i, -, rfl⟩ := hr <;> simp
  obtain ⟨address, permissions, type⟩ := r
  have hall : ∀ k ∈ [(Permissions.rwRo, IntervalType.code), (.rwRw, .data), (.rwRw, .stack)],
      (Request.mk 0 k.1 k.2).Protected := by decide
  exact hall _ hkind

/-- What the user can write through the table is not executed. -/
def World.Protected (w : World) (table : Nat) : Prop :=
  ∀ v entry, descriptor w.memory (w.tables table) v = some entry → UserWritable entry →
    entry &&& L2.SmallPage.xn ≠ 0

/-- A page of a protected section is mapped. -/
theorem World.Protected.mapNew (heap : HeapPages translate new) (hw : Valid translate new w)
    {r : Request} (hv : r.address >>> 20 < 2048) (hr : r.Protected) (h : w.Protected table)
    (hu : mapNew translate new table w r = .ok u) : u.Protected table := by
  intro v entry hentry hwritable
  rw [mapNew_descriptor heap hw hv hu] at hentry
  by_cases hnew : v / 4096 = r.address / 4096
  · rw [if_pos ⟨rfl, hnew⟩] at hentry
    obtain rfl := Option.some.inj hentry
    have haligned := (head_aligned hw).1
    have hbits : ∀ mask, mask &&& 0xfff = mask →
        pageEntry (w.free.headD 0) r.permissions r.type false &&& mask =
          pageAttributes r.permissions r.type false &&& mask :=
      fun mask hmask => pageEntry_and haligned hmask
    rw [UserWritable, hbits _ (by decide), hbits _ (by decide), hbits _ (by decide)] at hwritable
    rw [hbits _ (by decide)]
    exact hr hwritable
  · rw [if_neg fun hcond => hnew hcond.2] at hentry
    exact h v entry hentry hwritable

theorem World.Protected.mapAll (heap : HeapPages translate new) (hw : Valid translate new w)
    {rs : List Request} (hrange : InRange rs) (hrs : ∀ r ∈ rs, r.Protected)
    (h : w.Protected table) (hu : rs.foldlM (WagtailProcess.mapNew translate new table) w = .ok u) :
    u.Protected table := by
  have hloop := foldlM_except (f := WagtailProcess.mapNew translate new table) (s := w) (l := rs)
    (I := fun done t => Grown translate new table w done t ∧ t.Protected table)
    (E := fun _ => True) ⟨.nil hw, h⟩
    fun done r t ⟨rest, hsplit⟩ ⟨hdone, hprotected⟩ => by
      have hr : r ∈ rs := by simp [hsplit]
      obtain ⟨t', ht', hnew⟩ | herror := mapNew_spec heap hdone.valid (hrange r hr)
      · exact .inl ⟨t', ht', hdone.snoc hnew,
          hprotected.mapNew heap hdone.valid (hrange r hr) (hrs r hr) ht'⟩
      · exact .inr ⟨_, herror, trivial⟩
  obtain ⟨t, ht, -, hprotected⟩ | ⟨x, hx, -⟩ := hloop
  · obtain rfl := Except.ok.inj (hu.symm.trans ht)
    exact hprotected
  · cases hu.symm.trans hx

/-! ## What the constructor leaves behind -/

/-- The executable is in memory: its bytes, the program break, the pages that are mapped, and
their protections. No store has aborted. -/
structure Loaded (header : Header) (buffer : Nat → Nat) (w u : World) (proc : Process) :
    Prop where
  bytes : ∀ a, 0x1000 ≤ a → a < header.bssStart →
    u.read proc.translationTable a = some (buffer (a - 0x1000))
  programBreak : proc.programBreak = (header.applicationEnd + 4095) / 4096 * 4096
  mapped : ∀ v, u.walk proc.translationTable v ≠ none ↔
    0x1000 ≤ v ∧ v < proc.programBreak ∨
      0x80000000 - defaultStackSize ≤ v ∧ v < 0x80000000
  dataAborts : u.dataAborts = w.dataAborts
  executeNever : u.Protected proc.translationTable
  usable : proc.usable = true

theorem newProcess_protected (heap : HeapPages translate new) (hw : Valid translate new w)
    (hnone : ∀ v, w.walk table v = none) : (newProcess w table pid).1.Protected table := by
  intro v entry hentry
  have hwalk := (newProcess_valid heap hw hnone pid).2 table v
  rw [hnone v, World.walk, WagtailMmu.walk, hentry] at hwalk
  cases hwalk

/-- The pages of a well-formed executable are those from 0x1000 up to the rounded end of the
application, and the stack. -/
theorem Header.WellFormed.mapped {header : Header} (hh : header.WellFormed) (v : Nat) :
    Requested (requests header.codePages header.dataPages stackPagesDefault) v ↔
      0x1000 ≤ v ∧ v < (header.applicationEnd + 4095) / 4096 * 4096 ∨
        0x80000000 - defaultStackSize ≤ v ∧ v < 0x80000000 := by
  obtain ⟨hcode, hroom⟩ := hh.fits
  have hstack : stackPagesDefault = 4 := rfl
  have hsize : defaultStackSize = 4 * 4096 := rfl
  rw [requested_iff ⟨by omega, by omega⟩]
  obtain ⟨hc, hcd⟩ := hh.pages
  have hlow := hh.code
  have hdata := hh.data
  have hbss := hh.bss
  omega

/-- The two copy loops behind the mappings. -/
theorem processFromBuffer_steps {header : Header} {buffer : Nat → Nat} {proc : Process} {t : World}
    (hu : processFromBuffer translate new w table pid header buffer = .ok (u, proc))
    (ht : (requests header.codePages header.dataPages stackPagesDefault).foldlM
      (mapNew translate new table) (newProcess w table pid).1 = .ok t) :
    ∃ w₁, (t.setApplicationTable translate table pid).storeBuffer 0x1000
        (sub header.dataStart 0x1000) buffer = .ok w₁ ∧
      w₁.storeBuffer (wrap (0x1000 + header.codePages * 0x1000))
        (sub header.bssStart header.dataStart)
        (fun i => buffer (i + header.codePages * 0x1000)) = .ok u := by
  rw [processFromBuffer_eq] at hu
  obtain ⟨s, hsetup, hu⟩ := ok_of_bind hu
  obtain ⟨w₁, hfirst, hu⟩ := ok_of_bind hu
  obtain ⟨w₂, hsecond, hu⟩ := ok_of_bind hu
  obtain ⟨rfl, -⟩ := Prod.mk.inj (Except.ok.inj hu)
  rw [setupAddrspace_eq] at hsetup
  obtain ⟨t', ht', hs⟩ := ok_of_bind hsetup
  obtain rfl : t' = t := Except.ok.inj (ht'.symm.trans ht)
  obtain rfl := Except.ok.inj hs
  exact ⟨w₁, hfirst, hsecond⟩

theorem processFromBuffer_bytes {header : Header} (hh : header.WellFormed) {buffer : Nat → Nat}
    {proc : Process} {t : World}
    (hu : processFromBuffer translate new w table pid header buffer = .ok (u, proc))
    (ht : (requests header.codePages header.dataPages stackPagesDefault).foldlM
      (mapNew translate new table) (newProcess w table pid).1 = .ok t)
    (hmapped : ∀ v, 0x1000 ≤ v → v < header.bssStart → t.walk table v ≠ none)
    (hunshared : t.Unshared table) :
    ∀ a, 0x1000 ≤ a → a < header.bssStart → u.read table a = some (buffer (a - 0x1000)) := by
  obtain ⟨w₁, hfirst, hsecond⟩ := processFromBuffer_steps hu ht
  obtain ⟨hc, -⟩ := hh.pages
  obtain ⟨haligned, hcode, hdata, hbss, hroom⟩ := hh
  have hroom : header.applicationEnd ≤ 0x80000000 - 0x4000 := hroom
  have hbehind : 0x1000 + header.codePages * 0x1000 = header.dataStart := by omega
  rw [sub_of_le (by omega) (by omega)] at hfirst
  rw [hbehind, wrap_of_lt (by omega), sub_of_le hdata (by omega)] at hsecond
  obtain ⟨⟨bytes, rfl⟩, hread⟩ := World.storeBuffer_read hfirst
    (World.setApplicationTable_current ..) (fun i hi => hmapped _ (by omega) (by omega)) hunshared
    (by omega)
  obtain ⟨-, hread'⟩ := World.storeBuffer_read hsecond
    (World.setApplicationTable_current ..) (fun i hi => hmapped _ (by omega) (by omega)) hunshared
    (by omega)
  intro a hlow hhigh
  rw [hread', hread]
  by_cases hsection : header.dataStart ≤ a
  · have hindex : a - header.dataStart + header.codePages * 0x1000 = a - 0x1000 := by omega
    rw [if_pos (by omega), hindex]
  · rw [if_neg (by omega), if_pos (by omega)]

/-- With enough pages the constructor loads every well-formed executable, unless the heap has no
memory for a page table. -/
theorem processFromBuffer_loaded (heap : HeapPages translate new) (hw : Valid translate new w)
    (hnone : ∀ v, w.walk table v = none) (pid : Nat) {header : Header} (hh : header.WellFormed)
    (buffer : Nat → Nat)
    (henough : (requests header.codePages header.dataPages stackPagesDefault).length ≤
      w.free.length) :
    (∃ u proc, processFromBuffer translate new w table pid header buffer = .ok (u, proc) ∧
      Loaded header buffer w u proc) ∨
    (requests header.codePages header.dataPages stackPagesDefault).foldlM
      (mapNew translate new table) (newProcess w table pid).1 = .error .allocation ∧
    processFromBuffer translate new w table pid header buffer = .error .allocation := by
  obtain ⟨u, proc, hu, ⟨-, htable, -, -, -, hbreak⟩, ⟨t, ht, hgrown, htables, hmemory⟩, hquiet⟩ |
    hfailed := processFromBuffer_spec heap hw hnone pid hh buffer
  · obtain ⟨hw₀, hwalk₀⟩ := newProcess_valid heap hw hnone pid
    have hnone₀ : ∀ v, (newProcess w table pid).1.walk table v = none :=
      fun v => (hwalk₀ table v).trans (hnone v)
    obtain ⟨hcode, hfits⟩ := hh.fits
    obtain ⟨hc, hcd⟩ := hh.pages
    have hstack : stackPagesDefault = 4 := rfl
    have hend : proc.programBreak = (header.applicationEnd + 4095) / 4096 * 4096 := by
      rw [hbreak, wrap_of_lt (by omega)]
      omega
    have hprotected := (newProcess_protected heap hw hnone).mapAll heap hw₀
      (requests_inRange ⟨by omega, by omega⟩) requests_protected ht
    have husable : proc.usable = true := by
      have hconstruct : construct translate new w table pid (.executable header buffer) =
        .ok (u, proc) := hu
      exact (construct_ok hconstruct).2
    have hdomain : ∀ v, t.walk table v ≠ none ↔
        0x1000 ≤ v ∧ v < (header.applicationEnd + 4095) / 4096 * 4096 ∨
          0x80000000 - defaultStackSize ≤ v ∧ v < 0x80000000 :=
      fun v => (hgrown.domain hnone₀ v).trans (hh.mapped v)
    have hstored : ∀ v, 0x1000 ≤ v → v < header.bssStart → t.walk table v ≠ none := by
      intro v hlow hhigh
      have hbss := hh.bss
      exact (hdomain v).mpr (.inl ⟨hlow, by omega⟩)
    refine .inl ⟨u, proc, hu, ?_, hend, fun v => ?_, hquiet, ?_, husable⟩
    · rw [htable]
      exact processFromBuffer_bytes hh hu ht hstored (hgrown.unshared heap hw₀ hnone₀ henough)
    · rw [hend, htable, walk_congr htables hmemory]
      exact hdomain v
    · rw [htable, World.Protected, htables, hmemory]
      exact hprotected
  · exact .inr hfailed

/-- For every image with a well-formed header and enough pages: when the constructor finishes, the
executable is in memory without an abort, and it only fails to finish if the heap has no memory for
a page table. -/
theorem processFromImage_loaded (heap : HeapPages translate new) (hw : Valid translate new w)
    (hnone : ∀ v, w.walk table v = none) (pid : Nat) {buffer : Buffer}
    (hh : (readHeader buffer).WellFormed)
    (henough : (requests (readHeader buffer).codePages (readHeader buffer).dataPages
      stackPagesDefault).length ≤ w.free.length) :
    (∃ u proc, processFromImage translate new w table pid buffer = .ok (u, proc) ∧
      Loaded (readHeader buffer) (fun i => (buffer i).toNat) w u proc) ∨
    (requests (readHeader buffer).codePages (readHeader buffer).dataPages
      stackPagesDefault).foldlM (mapNew translate new table) (newProcess w table pid).1 =
        .error .allocation ∧
    processFromImage translate new w table pid buffer = .error .allocation :=
  processFromBuffer_loaded heap hw hnone pid hh _ henough

/-- One page of code that starts with a header. -/
def smallImage : Buffer
  | 4 => 0x57
  | 5 => 0x4f
  | 6 => 0x53
  | 7 => 1
  | 9 => 0x20
  | 13 => 0x20
  | 17 => 0x20
  | _ => 0

theorem smallImage_loaded : ∃ u proc,
    processFromImage id supply (bare 16).world 0x80010000 1 smallImage = .ok (u, proc) ∧
      Loaded (readHeader smallImage) (fun i => (smallImage i).toNat) (bare 16).world u proc := by
  have hheader : readHeader smallImage = smallHeader := by decide
  have hh : (readHeader smallImage).WellFormed := hheader ▸ smallHeader_wellFormed
  obtain hloaded | ⟨hcause, -⟩ := processFromImage_loaded heapPages_supply
    (bare_valid (n := 16) (by decide)) (bare_walk 16 0x80010000) 1 hh (by decide +kernel)
  · exact hloaded
  · have hmapped : (firstMapped 16).toOption.isSome = true := by decide +kernel
    obtain ⟨w, hw⟩ := ok_of_isSome hmapped
    rw [hheader] at hcause
    cases hcause.symm.trans hw

end WagtailProcess
