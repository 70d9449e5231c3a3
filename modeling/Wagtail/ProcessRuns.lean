import Wagtail.ProcessMemory

/-!
# Creating and destroying processes

Executables and copies of processes are made and destroyed in any order. What is
on the page stack and what the live processes have mapped are the pages that were
there at the start, also when the stack runs empty on the way.
-/
namespace WagtailProcess

open Word (wrap wrap_of_lt)
open WagtailMm (Mm StaticKstack initializePageStack)
open WagtailMmu
open Pool (Conserved)
open Runs (Run bind_of_ok)

variable {translate new : Nat → Nat} {w u : World}

/-! ## Live processes -/

/-- What the constructors leave behind: the table maps the pages of the sections, and these are
the ones that the destructor goes through. -/
structure Process.Live (proc : Process) (w : World) : Prop where
  code : 0 < proc.codePages
  stack : proc.stackPages = stackPagesDefault
  fits : 1 + proc.codePages + proc.dataPages + proc.stackPages ≤ 0x80000
  programBreak : proc.programBreak =
    wrap (0x1000 + proc.codePages * 0x1000 + proc.dataPages * 0x1000)
  mapped : ∀ v, w.walk proc.translationTable v ≠ none ↔ Requested proc.requests v

theorem Process.Live.inUser {proc : Process} (h : proc.Live w) :
    InUser proc.codePages proc.dataPages proc.stackPages := by
  have hfits := h.fits
  have hstack : proc.stackPages = 4 := h.stack
  exact ⟨by omega, by omega⟩

/-- Only the walks of the table matter. -/
theorem Process.Live.congr {proc : Process} (h : proc.Live w)
    (hwalk : ∀ v, u.walk proc.translationTable v = w.walk proc.translationTable v) :
    proc.Live u where
  code := h.code
  stack := h.stack
  fits := h.fits
  programBreak := h.programBreak
  mapped v := by rw [hwalk, h.mapped]

/-- The destructor returns all pages of the process, and those of no other one. -/
structure Destroyed (translate new : Nat → Nat) (w : World) (table : Nat) (u : World) : Prop where
  valid : Valid translate new u
  capacity : u.memory.mm.pageStack.capacity = w.memory.mm.pageStack.capacity
  walk : ∀ q v, u.walk q v = if q = table then none else w.walk q v
  conserved : ∀ all, Conserved all w.free w.held → Conserved all u.free u.held

/-- The pages of a live process are those that the destructor unmaps. -/
theorem Process.Live.unmapped {proc : Process} (hlive : proc.Live w) {v : Nat}
    (hsome : w.walk proc.translationTable v ≠ none) :
    (∃ a ∈ (List.range ((proc.programBreak - 0x1000 + 4095) / 4096)).map fun i =>
      0x1000 + 4096 * i, v / 4096 = a / 4096) ∨
    ∃ a ∈ (List.range ((0x80000000 - (0x80000000 - defaultStackSize) + 4095) / 4096)).map fun i =>
      0x80000000 - defaultStackSize + 4096 * i, v / 4096 = a / 4096 := by
  have hfits := hlive.fits
  have hstack : proc.stackPages = 4 := hlive.stack
  have hbreak : proc.programBreak = 4096 * (1 + proc.codePages + proc.dataPages) := by
    rw [hlive.programBreak, wrap_of_lt (by omega)]
    omega
  have hcount : (0x80000000 - (0x80000000 - defaultStackSize) + 4095) / 4096 = 4 := rfl
  have hstart : 0x80000000 - defaultStackSize = 0x7fffc000 := rfl
  cases (requested_iff hlive.inUser v).mp ((hlive.mapped v).mp hsome) with
  | inl hsections =>
    refine .inl ⟨_, List.mem_map.mpr ⟨v / 4096 - 1, ?_, rfl⟩, ?_⟩
    · rw [List.mem_range, hbreak]
      omega
    · omega
  | inr hpages =>
    refine .inr ⟨_, List.mem_map.mpr ⟨v / 4096 - 0x7fffc, ?_, rfl⟩, ?_⟩
    · rw [List.mem_range, hcount]
      omega
    · rw [hstart]
      omega

theorem destroyProcess_spec (heap : HeapPages translate new) (hw : Valid translate new w)
    {proc : Process} (hlive : proc.Live w) :
    ∃ u, destroyProcess translate w proc = .ok u ∧
      Destroyed translate new w proc.translationTable u := by
  have hfits := hlive.fits
  have hstack : proc.stackPages = 4 := hlive.stack
  have hbreak : proc.programBreak ≤ 0x80000000 := by
    rw [hlive.programBreak, wrap_of_lt (by omega)]
    omega
  obtain ⟨w₁, hfirst, hsections⟩ := unmapInterval_spec heap hw proc.translationTable 0x1000
    proc.programBreak hbreak (by decide)
  obtain ⟨w₂, hsecond, hall⟩ := unmapInterval_spec heap hsections.valid
    proc.translationTable (0x80000000 - defaultStackSize) 0x80000000 (by decide) (by decide)
  refine ⟨w₂, ?_, hall.valid, hall.capacity.trans hsections.capacity, fun q v => ?_,
    fun all h => hall.conserved all (hsections.conserved all h)⟩
  · have hpos : proc.stackPages > 0 := by omega
    rw [destroyProcess, if_pos hlive.code, bind_of_ok hfirst]
    dsimp only
    rw [if_pos hpos, hsecond]
  · rw [hall.walk, hsections.walk]
    by_cases hq : q = proc.translationTable
    · subst hq
      simp only [true_and, if_true]
      split_ifs with hpages hlow
      · rfl
      · rfl
      · by_contra hsome
        exact (hlive.unmapped hsome).elim hlow hpages
    · simp [hq]

/-! ## Steps -/

/-- The world and the live processes by their addresses. -/
structure System where
  world : World
  processes : Nat → Option Process

/-- Processes are constructed with the memory that the heap has for them, and destroyed. What runs
in between changes the bytes of memory and the active table. -/
inductive Action where
  | create (process table pid : Nat) (header : Header) (buffer : Nat → Nat)
  | copy (process table pid parent : Nat)
  | destroy (process : Nat)
  | execute (bytes : Nat → Nat) (mmu : Mmu)

/-- The memory for a process and its table is not in use. -/
structure System.Fresh (s : System) (process table : Nat) : Prop where
  address : process ≠ 0 ∧ table ≠ 0
  dead : s.processes process = none
  unused : ∀ a proc, s.processes a = some proc → proc.translationTable ≠ table

def Action.Enabled (s : System) : Action → Prop
  | .create process table _ header _ => s.Fresh process table ∧ header.WellFormed
  | .copy process table _ parent => s.Fresh process table ∧ s.processes parent ≠ none
  | .destroy process => s.processes process ≠ none
  | .execute _ _ => True

/-- The processes with another one. -/
def System.add (s : System) (process : Nat) (r : World × Process) : System :=
  ⟨r.1, Function.update s.processes process (some r.2)⟩

/-- The processes without one. -/
def System.remove (s : System) (process : Nat) (world : World) : System :=
  ⟨world, Function.update s.processes process none⟩

theorem System.add_eq_some {s : System} {process a : Nat} {r : World × Process} {proc : Process} :
    (s.add process r).processes a = some proc ↔
      a = process ∧ r.2 = proc ∨ a ≠ process ∧ s.processes a = some proc := by
  by_cases ha : a = process
  · subst ha
    simp [add]
  · simp [add, ha]

theorem System.remove_eq_some {s : System} {process a : Nat} {world : World} {proc : Process} :
    (s.remove process world).processes a = some proc ↔
      a ≠ process ∧ s.processes a = some proc := by
  by_cases ha : a = process
  · subst ha
    simp [remove]
  · simp [remove, ha]

def perform (translate new : Nat → Nat) (s : System) : Action → Except Fault System
  | .create process table pid header buffer =>
    (processFromBuffer translate new s.world table pid header buffer).map (s.add process)
  | .copy process table pid parent =>
    match s.processes parent with
    | some parent =>
      (processFromParent translate new s.world table pid parent).map (s.add process)
    | none => .error .access
  | .destroy process =>
    match s.processes process with
    | some proc => (destroyProcess translate s.world proc).map (s.remove process)
    | none => .error .access
  | .execute bytes mmu => .ok { s with world := { s.world with bytes := bytes, mmu := mmu } }

def Step (translate new : Nat → Nat) (s : System) (a : Action) (t : System) : Prop :=
  a.Enabled s ∧ perform translate new s a = .ok t

/-- No page is lost or in two places, the live processes have tables of their own, and no other
table maps anything. -/
structure Keeps (translate new : Nat → Nat) (all : List Nat) (capacity : Nat) (s : System) :
    Prop where
  valid : Valid translate new s.world
  conserved : Conserved all s.world.free s.world.held
  capacity : s.world.memory.mm.pageStack.capacity = capacity
  live : ∀ a proc, s.processes a = some proc → proc.Live s.world
  tables : ∀ a b proc proc', s.processes a = some proc → s.processes b = some proc' →
    proc.translationTable = proc'.translationTable → a = b
  owned : ∀ q v, s.world.walk q v ≠ none →
    ∃ a proc, s.processes a = some proc ∧ proc.translationTable = q

variable {all : List Nat} {capacity : Nat} {s t : System}

/-- A fresh table maps nothing. -/
theorem Keeps.unmapped (h : Keeps translate new all capacity s) {process table : Nat}
    (hfresh : s.Fresh process table) (v : Nat) : s.world.walk table v = none := by
  by_contra hsome
  obtain ⟨a, proc, hproc, htable⟩ := h.owned table v hsome
  exact hfresh.unused a proc hproc htable

/-- A process that has been built joins the live ones. -/
theorem Keeps.add (heap : HeapPages translate new) (h : Keeps translate new all capacity s)
    {process table pid codePages dataPages : Nat} {proc : Process}
    (hfresh : s.Fresh process table) (hcode : 0 < codePages)
    (hfits : 1 + codePages + dataPages + stackPagesDefault ≤ 0x80000)
    (hbuilt : Built translate new s.world table pid codePages dataPages stackPagesDefault u proc) :
    Keeps translate new all capacity (s.add process (u, proc)) := by
  have hnone := h.unmapped hfresh
  obtain ⟨hw₀, hwalk₀⟩ := newProcess_valid heap h.valid hnone pid
  obtain ⟨⟨-, htable, hc, hd, hs, hbreak⟩, ⟨t, ht, hgrown, htables, hmemory⟩, -⟩ := hbuilt
  have hstack : stackPagesDefault = 4 := rfl
  have hrange : InRange (requests codePages dataPages stackPagesDefault) :=
    requests_inRange ⟨by omega, by omega⟩
  have hnone₀ : ∀ v, (newProcess s.world table pid).1.walk table v = none :=
    fun v => (hwalk₀ table v).trans (hnone v)
  have hwalk := walk_congr htables hmemory
  have hother : ∀ q, q ≠ table → ∀ v, u.walk q v = s.world.walk q v := by
    intro q hq v
    rw [hwalk, hgrown.others q v fun hcond => hq hcond.1, hwalk₀]
  have hfree : u.free = t.free := by rw [World.free, World.free, hmemory]
  have hheld : u.held = t.held := by
    funext x
    simp only [World.held, hwalk]
  have hheld₀ : (newProcess s.world table pid).1.held = s.world.held := by
    funext x
    simp only [World.held, hwalk₀]
  have hnew : proc.Live u := by
    refine ⟨hc ▸ hcode, hs, ?_, ?_, fun v => ?_⟩
    · rw [hc, hd, hs]
      exact hfits
    · rw [hbreak, hc, hd]
    · rw [htable, hwalk, Process.requests, hc, hd, hs]
      exact hgrown.domain hnone₀ v
  constructor
  · exact hgrown.valid.congr htables hmemory
  · change Conserved all u.free u.held
    rw [hfree, hheld]
    exact mapAll_conserved heap hw₀ hrange (hheld₀ ▸ h.conserved) (fun v _ => hnone₀ v)
      (requests_distinct hfits) ht
  · change u.memory.mm.pageStack.capacity = capacity
    rw [hmemory, hgrown.capacity]
    exact h.capacity
  · intro a proc' hproc'
    obtain ⟨-, rfl⟩ | ⟨-, hproc'⟩ := System.add_eq_some.mp hproc'
    · exact hnew
    · exact (h.live a proc' hproc').congr (hother _ (hfresh.unused a proc' hproc'))
  · intro a b proc₁ proc₂ hproc₁ hproc₂ hsame
    obtain ⟨rfl, rfl⟩ | ⟨-, hbefore⟩ := System.add_eq_some.mp hproc₁
    · obtain ⟨rfl, -⟩ | ⟨-, hproc₂⟩ := System.add_eq_some.mp hproc₂
      · rfl
      · exact absurd (hsame.symm.trans htable) (hfresh.unused b proc₂ hproc₂)
    · obtain ⟨rfl, rfl⟩ | ⟨-, hproc₂⟩ := System.add_eq_some.mp hproc₂
      · exact absurd (hsame.trans htable) (hfresh.unused a proc₁ hbefore)
      · exact h.tables a b proc₁ proc₂ hbefore hproc₂ hsame
  · intro q v hsome
    by_cases hq : q = table
    · exact ⟨process, proc, System.add_eq_some.mpr (.inl ⟨rfl, rfl⟩), htable.trans hq.symm⟩
    · obtain ⟨a, proc', hproc', hq'⟩ := h.owned q v (hother q hq v ▸ hsome)
      have hne : a ≠ process := by
        rintro rfl
        rw [hfresh.dead] at hproc'
        cases hproc'
      exact ⟨a, proc', System.add_eq_some.mpr (.inr ⟨hne, hproc'⟩), hq'⟩

/-- A process that has been destroyed leaves them. -/
theorem Keeps.remove (h : Keeps translate new all capacity s) {process : Nat} {proc : Process}
    (hproc : s.processes process = some proc)
    (hdestroyed : Destroyed translate new s.world proc.translationTable u) :
    Keeps translate new all capacity (s.remove process u) := by
  have hother : ∀ q, q ≠ proc.translationTable → ∀ v, u.walk q v = s.world.walk q v := by
    intro q hq v
    rw [hdestroyed.walk, if_neg hq]
  constructor
  · exact hdestroyed.valid
  · exact hdestroyed.conserved all h.conserved
  · exact hdestroyed.capacity.trans h.capacity
  · intro a proc' hproc'
    obtain ⟨hne, hproc'⟩ := System.remove_eq_some.mp hproc'
    apply (h.live a proc' hproc').congr
    exact hother _ fun hsame => hne (h.tables a process proc' proc hproc' hproc hsame)
  · intro a b proc₁ proc₂ hproc₁ hproc₂ hsame
    exact h.tables a b proc₁ proc₂ (System.remove_eq_some.mp hproc₁).2
      (System.remove_eq_some.mp hproc₂).2 hsame
  · intro q v hsome
    have hsome : u.walk q v ≠ none := hsome
    have hq : q ≠ proc.translationTable := by
      rintro rfl
      rw [hdestroyed.walk, if_pos rfl] at hsome
      exact hsome rfl
    obtain ⟨a, proc', hproc', hq'⟩ := h.owned q v (hother q hq v ▸ hsome)
    refine ⟨a, proc', System.remove_eq_some.mpr ⟨?_, hproc'⟩, hq'⟩
    rintro rfl
    obtain rfl := Option.some.inj (hproc.symm.trans hproc')
    exact hq hq'.symm

theorem perform_create {process table pid : Nat} {header : Header} {buffer : Nat → Nat}
    {r : World × Process}
    (h : processFromBuffer translate new s.world table pid header buffer = .ok r) :
    perform translate new s (.create process table pid header buffer) = .ok (s.add process r) := by
  rw [perform, h]
  rfl

theorem perform_copy {process table pid parent : Nat} {proc : Process} {r : World × Process}
    (hparent : s.processes parent = some proc)
    (h : processFromParent translate new s.world table pid proc = .ok r) :
    perform translate new s (.copy process table pid parent) = .ok (s.add process r) := by
  simp only [perform, hparent, h]
  rfl

theorem perform_destroy {process : Nat} {proc : Process} (hproc : s.processes process = some proc)
    (h : destroyProcess translate s.world proc = .ok u) :
    perform translate new s (.destroy process) = .ok (s.remove process u) := by
  simp only [perform, hproc, h]
  rfl

/-- A step keeps it, and only fails if the heap has no memory for a page table. -/
theorem Keeps.perform (heap : HeapPages translate new) (h : Keeps translate new all capacity s)
    {a : Action} (ha : a.Enabled s) :
    (∃ t, perform translate new s a = .ok t ∧ Keeps translate new all capacity t) ∨
    perform translate new s a = .error .allocation := by
  cases a with
  | create process table pid header buffer =>
    obtain ⟨hfresh, hheader⟩ := ha
    obtain ⟨u, proc, hu, hbuilt⟩ | ⟨-, herror⟩ :=
      processFromBuffer_spec heap h.valid (h.unmapped hfresh) pid hheader buffer
    · obtain ⟨hcode, hfits⟩ := hheader.fits
      exact .inl ⟨_, perform_create hu, h.add heap hfresh hcode hfits hbuilt⟩
    · refine .inr ?_
      rw [WagtailProcess.perform, herror]
      rfl
  | copy process table pid parent =>
    obtain ⟨hfresh, hparent⟩ := ha
    obtain ⟨proc, hproc⟩ := Option.ne_none_iff_exists'.mp hparent
    have hlive := h.live parent proc hproc
    obtain ⟨u, child, hu, hbuilt, -⟩ | ⟨-, herror⟩ :=
      processFromParent_spec heap h.valid (h.unmapped hfresh) pid hlive.mapped
        (hfresh.unused parent proc hproc)
    · rw [hlive.stack] at hbuilt
      exact .inl ⟨_, perform_copy hproc hu,
        h.add heap hfresh hlive.code (hlive.stack ▸ hlive.fits) hbuilt⟩
    · refine .inr ?_
      simp only [WagtailProcess.perform, hproc, herror]
      rfl
  | destroy process =>
    obtain ⟨proc, hproc⟩ := Option.ne_none_iff_exists'.mp ha
    obtain ⟨u, hu, hdestroyed⟩ := destroyProcess_spec heap h.valid (h.live process proc hproc)
    exact .inl ⟨_, perform_destroy hproc hu, h.remove hproc hdestroyed⟩
  | execute bytes mmu =>
    exact .inl ⟨_, rfl, h.valid.congr rfl rfl, h.conserved, h.capacity,
      fun a proc hproc => (h.live a proc hproc).congr fun _ => rfl, h.tables, h.owned⟩

/-! ## The pages at the start -/

/-- The page stack is there, and there is room for the different pages on it. -/
structure Filled (mm : Mm) : Prop where
  ready : mm.pageStackInitialized = true
  distinct : mm.pageStack.elements.Nodup
  address : ∀ page ∈ mm.pageStack.elements, PageAddress page
  room : mm.pageStack.elements.length ≤ mm.pageStack.capacity

theorem foldl_push (base capacity n : Nat) :
    (List.range n).foldl (fun (s : StaticKstack) i => s.push (base + 4096 * i)) ⟨capacity, []⟩ =
      ⟨capacity, ((List.range n).map fun i => base + 4096 * i).reverse⟩ := by
  induction n with
  | zero => rfl
  | succ n ih =>
    rw [List.range_succ, List.foldl_concat, ih, List.map_append, List.reverse_append]
    rfl

/-- `mm::initialize` has counted the pages that it pushes. -/
theorem initializePageStack_filled {ramstart ramsize kernelDataspaceEnd : Nat}
    (hstart : ramstart % 4096 = 0) (hsize : ramsize % 4096 = 0)
    (hend : kernelDataspaceEnd % 4096 = 0) (hbehind : ramstart ≤ kernelDataspaceEnd)
    (hpos : 0 < kernelDataspaceEnd) (hlt : ramstart + ramsize ≤ 2 ^ 32) :
    Filled (initializePageStack ramstart ramsize kernelDataspaceEnd) := by
  unfold initializePageStack
  simp only [foldl_push]
  refine ⟨rfl, ?_, ?_, ?_⟩
  · refine List.nodup_reverse.mpr (List.nodup_range.map fun i j hij => ?_)
    simpa using hij
  · intro page hpage
    obtain ⟨i, hi, rfl⟩ := List.mem_map.mp (List.mem_reverse.mp hpage)
    rw [List.mem_range] at hi
    refine ⟨?_, ?_, ?_⟩ <;> omega
  · simp only [List.length_reverse, List.length_map, List.length_range]
    omega

/-- Before the first process. -/
def System.start (mm : Mm) (bytes : Nat → Nat) (mmu : Mmu) : System where
  world :=
    { tables := fun _ => .cleared
      memory := ⟨fun _ => none, 0, mm⟩
      bytes := bytes
      mmu := mmu
      dataAborts := [] }
  processes _ := none

theorem start_walk (mm : Mm) (bytes : Nat → Nat) (mmu : Mmu) (q v : Nat) :
    (System.start mm bytes mmu).world.walk q v = none :=
  (refines_start mm : Refines id id (Tables.start mm : Tables Nat 2048) _).walk q v

theorem start_keeps {mm : Mm} (hmm : Filled mm) (bytes : Nat → Nat) (mmu : Mmu) :
    Keeps translate new mm.pageStack.elements mm.pageStack.capacity
      (System.start mm bytes mmu) := by
  have hwalk := start_walk mm bytes mmu
  have hheld : (System.start mm bytes mmu).world.held = fun _ => none := by
    funext x
    rw [World.held, hwalk]
    rfl
  have hconserved : Conserved mm.pageStack.elements (System.start mm bytes mmu).world.free
      (System.start mm bytes mmu).world.held := hheld ▸ Conserved.start hmm.distinct
  constructor
  · exact ⟨(refines_start mm).sound, hmm.ready, hconserved.toExclusive, hmm.address⟩
  · exact hconserved
  · rfl
  · intro a proc hproc
    cases hproc
  · intro a b proc proc' hproc
    cases hproc
  · exact fun q v hsome => absurd (hwalk q v) hsome

/-! ## Runs -/

/-- The page that a live process has at an address. -/
def System.maps (s : System) (process virt : Nat) : Option Nat :=
  (s.processes process).bind fun proc => s.world.walk proc.translationTable virt

/-- The pages that there were at the start are on the stack or mapped by a live process, each in
one place. Page 0, which stands for none, is no page of the pool. -/
structure Accounted (all : List Nat) (capacity : Nat) (s : System) : Prop where
  distinct : s.world.free.Nodup
  apart : ∀ page ∈ s.world.free, ∀ process virt, s.maps process virt ≠ some page
  once : ∀ a b v v' page, page ≠ 0 → s.maps a v = some page → s.maps b v' = some page →
    a = b ∧ v / 4096 = v' / 4096
  exact : ∀ page, page ∈ all ↔
    page ∈ s.world.free ∨ page ≠ 0 ∧ ∃ process virt, s.maps process virt = some page
  room : s.world.memory.mm.pageStack.elements.length ≤ s.world.memory.mm.pageStack.capacity ∧
    s.world.memory.mm.pageStack.capacity = capacity

theorem Keeps.accounted (heap : HeapPages translate new) (h : Keeps translate new all capacity s)
    (hroom : all.length ≤ capacity) : Accounted all capacity s := by
  have hheld : ∀ {a v page}, page ≠ 0 → s.maps a v = some page → ∃ proc,
      s.processes a = some proc ∧ s.world.held (proc.translationTable, v / 4096) = some page := by
    intro a v page hne hmaps
    obtain ⟨proc, hproc, hwalk⟩ := Option.bind_eq_some_iff.mp hmaps
    exact ⟨proc, hproc, held_of_walk heap h.valid.sound hwalk hne⟩
  constructor
  · exact h.conserved.nodup
  · intro page hpage a v hmaps
    obtain ⟨proc, -, hplace⟩ := hheld (h.valid.address page hpage).1 hmaps
    exact h.conserved.apart page hpage _ hplace
  · intro a b v v' page hne ha hb
    obtain ⟨proc, hproc, hplace⟩ := hheld hne ha
    obtain ⟨proc', hproc', hplace'⟩ := hheld hne hb
    obtain ⟨htable, hv⟩ := Prod.mk.inj (h.conserved.unique _ _ page hplace hplace')
    exact ⟨h.tables a b proc proc' hproc hproc' htable, hv⟩
  · intro page
    rw [h.conserved.covered page]
    refine or_congr_right ⟨?_, ?_⟩
    · rintro ⟨⟨q, n⟩, hplace⟩
      obtain ⟨hwalk, hne⟩ := Option.filter_eq_some_iff.mp hplace
      have hwalk : s.world.walk q (4096 * n) = some page := hwalk
      obtain ⟨a, proc, hproc, rfl⟩ := h.owned q (4096 * n) (by simp [hwalk])
      refine ⟨by simpa using hne, a, 4096 * n, ?_⟩
      rw [System.maps, hproc]
      exact hwalk
    · rintro ⟨hne, a, v, hmaps⟩
      obtain ⟨proc, -, hplace⟩ := hheld hne hmaps
      exact ⟨_, hplace⟩
  · refine ⟨?_, h.capacity⟩
    rw [h.capacity]
    exact h.conserved.length_le.trans hroom

theorem run_keeps (heap : HeapPages translate new) {mm : Mm} (hmm : Filled mm)
    {bytes : Nat → Nat} {mmu : Mmu} {actions : List Action}
    (hrun : Run (Step translate new) (System.start mm bytes mmu) actions s) :
    Keeps translate new mm.pageStack.elements mm.pageStack.capacity s := by
  refine hrun.invariant (I := Keeps translate new mm.pageStack.elements mm.pageStack.capacity)
    (start_keeps hmm bytes mmu) ?_
  rintro t a u h ⟨ha, hperform⟩
  obtain ⟨u', hu', hkeeps⟩ | herror := h.perform heap ha
  · obtain rfl := Except.ok.inj (hperform.symm.trans hu')
    exact hkeeps
  · cases hperform.symm.trans herror

/-- No page is lost or in two places in any state of a run, and a construction or destruction only
fails if the heap has no memory for a page table. -/
theorem run_accounted (heap : HeapPages translate new) {mm : Mm} (hmm : Filled mm)
    {bytes : Nat → Nat} {mmu : Mmu} {actions : List Action}
    (hrun : Run (Step translate new) (System.start mm bytes mmu) actions s) :
    Accounted mm.pageStack.elements mm.pageStack.capacity s ∧ ∀ a : Action, a.Enabled s →
      (∃ t, perform translate new s a = .ok t) ∨
      perform translate new s a = .error .allocation := by
  have h := run_keeps heap hmm hrun
  refine ⟨h.accounted heap hmm.room, fun a ha => (h.perform heap ha).imp_left ?_⟩
  rintro ⟨t, ht, -⟩
  exact ⟨t, ht⟩

/-! ## A pool that runs dry -/

/-- The last pages of RAM. -/
def lastPages (n : Nat) : Mm := initializePageStack 0x80000000 0x400000 (0x80400000 - 4096 * n)

theorem lastPages_filled {n : Nat} (h : n ≤ 1024) : Filled (lastPages n) :=
  initializePageStack_filled (by decide) (by decide) (by omega) (by omega) (by omega) (by decide)

/-- One page of code. -/
def smallHeader : Header := ⟨0x2000, 0x2000, 0x2000⟩

theorem smallHeader_wellFormed : smallHeader.WellFormed where
  aligned := by decide
  code := by decide
  data := by decide
  bss := by decide
  room := by decide

/-- The state with so many pages before the first process. -/
def bare (n : Nat) : System := System.start (lastPages n) (fun _ => 0) ⟨0, 0, 0, true, 0⟩

theorem bare_valid {n : Nat} (hn : n ≤ 1024) : Valid id supply (bare n).world :=
  (start_keeps (lastPages_filled hn) _ _).valid

theorem bare_walk (n table v : Nat) : (bare n).world.walk table v = none := start_walk _ _ _ table v

/-- The first process has the pages that it needs. -/
def firstMapped (n : Nat) : Except Fault World :=
  (requests 1 0 4).foldlM (mapNew id supply 0x80010000) (newProcess (bare n).world 0x80010000 1).1

/-- Its copy takes the next ones. -/
def secondMapped (n : Nat) : Except Fault World := do
  let w ← firstMapped n
  (requests 1 0 4).foldlM (mapNew id supply 0x80014000) (newProcess w 0x80014000 2).1

theorem ok_of_isSome {α : Type} {x : Except Fault α} (h : x.toOption.isSome = true) :
    ∃ a, x = .ok a := by
  cases x with
  | error e => cases h
  | ok a => exact ⟨a, rfl⟩

/-- The address space of the first process is as the constructor leaves it. -/
theorem firstMapped_grown {n : Nat} (hn : n ≤ 1024) (h : firstMapped n = .ok w) :
    (∀ q v, (newProcess (bare n).world 0x80010000 1).1.walk q v = none) ∧
      Grown id supply 0x80010000 (newProcess (bare n).world 0x80010000 1).1 (requests 1 0 4) w := by
  obtain ⟨hw₀, hwalk₀⟩ := newProcess_valid heapPages_supply (bare_valid hn) (bare_walk n _) 1
  refine ⟨fun q v => (hwalk₀ q v).trans (bare_walk n q v), ?_⟩
  obtain ⟨u, hu, hgrown⟩ | herror := mapAll_spec heapPages_supply hw₀ 0x80010000
    (requests_inRange (c := 1) (d := 0) (s := 4) ⟨by decide, by decide⟩)
  · obtain rfl := Except.ok.inj (h.symm.trans hu)
    exact hgrown
  · cases h.symm.trans herror

/-- The mappings of the copy do not depend on the bytes that the executable has stored. -/
theorem secondMapped_ok {n : Nat} {e : Fault} (hsecond : (secondMapped n).toOption.isSome = true)
    (h : firstMapped n = .ok w) (htables : u.tables = w.tables) (hmemory : u.memory = w.memory) :
    (requests 1 0 4).foldlM (mapNew id supply 0x80014000) (newProcess u 0x80014000 2).1 ≠
      .error e := by
  have htables' : (newProcess u 0x80014000 2).1.tables = (newProcess w 0x80014000 2).1.tables := by
    change Function.update u.tables _ _ = Function.update w.tables _ _
    rw [htables]
  rw [secondMapped, bind_of_ok h] at hsecond
  obtain ⟨t, ht⟩ := ok_of_isSome hsecond
  rw [mapAll_congr _ htables' hmemory, ht]
  exact nofun

/-- The first process is made. -/
theorem create_small {n : Nat} (hn : n ≤ 1024) (hmapped : (firstMapped n).toOption.isSome = true) :
    ∃ u proc, processFromBuffer id supply (bare n).world 0x80010000 1 smallHeader (fun _ => 0) =
        .ok (u, proc) ∧
      Built id supply (bare n).world 0x80010000 1 1 0 4 u proc := by
  obtain hmade | ⟨hcause, -⟩ := processFromBuffer_spec heapPages_supply (bare_valid hn)
    (bare_walk n _) 1 smallHeader_wellFormed fun _ => 0
  · exact hmade
  · obtain ⟨w, hw⟩ := ok_of_isSome hmapped
    cases hcause.symm.trans hw

/-- Two pages are left for its copy. -/
theorem left_small {u t : World} (hmemory : u.memory = t.memory)
    (hgrown : Grown id supply 0x80010000 (newProcess (bare 7).world 0x80010000 1).1
      (requests 1 0 4) t) : u.free.length = 2 := by
  have hfree : u.free = (newProcess (bare 7).world 0x80010000 1).1.free.drop 5 := by
    rw [World.free, hmemory]
    exact hgrown.free
  have hseven : (newProcess (bare 7).world 0x80010000 1).1.free.length = 7 := by decide +kernel
  rw [hfree, List.length_drop, hseven]

/-- The copy gets null pages. -/
theorem copied_small : ∃ s proc child, Run (Step id supply) (bare 7)
    [.create 0x1000 0x80010000 1 smallHeader fun _ => 0, .copy 0x2000 0x80014000 2 0x1000] s ∧
    (s.processes 0x1000 = some proc ∧ proc.translationTable = 0x80010000) ∧
    (s.processes 0x2000 = some child ∧ child.translationTable = 0x80014000) ∧
    ∃ virt, s.world.walk 0x80014000 virt = some 0 := by
  obtain ⟨u₁, proc, hu₁, hbuilt₁⟩ := create_small (n := 7) (by decide) (by decide +kernel)
  obtain ⟨⟨-, htable, hc, hd, hs, -⟩, ⟨t, ht, hgrown, htables, hmemory⟩, -⟩ := hbuilt₁
  -- the executable
  have hfresh₁ : (bare 7).Fresh 0x1000 0x80010000 := ⟨⟨by decide, by decide⟩, rfl, nofun⟩
  have hstep₁ : Step id supply (bare 7) (.create 0x1000 0x80010000 1 smallHeader fun _ => 0)
      ((bare 7).add 0x1000 (u₁, proc)) :=
    ⟨⟨hfresh₁, smallHeader_wellFormed⟩, perform_create hu₁⟩
  have hrun₁ := Run.nil.snoc hstep₁
  have hkeeps := run_keeps heapPages_supply (lastPages_filled (by decide)) hrun₁
  set s : System := (bare 7).add 0x1000 (u₁, proc) with hs₁
  have hproc : s.processes 0x1000 = some proc := System.add_eq_some.mpr (.inl ⟨rfl, rfl⟩)
  -- its copy
  have hfresh₂ : s.Fresh 0x2000 0x80014000 := by
    refine ⟨⟨by decide, by decide⟩, rfl, fun a proc' hproc' => ?_⟩
    obtain ⟨-, rfl⟩ | ⟨-, hnone⟩ := System.add_eq_some.mp hproc'
    · rw [htable]
      decide
    · cases hnone
  have hrequests : proc.requests = requests 1 0 4 := by rw [Process.requests, hc, hd, hs]
  obtain ⟨u₂, child, hu₂, hbuilt₂, -⟩ | ⟨hcause, -⟩ := processFromParent_spec heapPages_supply
    hkeeps.valid (hkeeps.unmapped hfresh₂) 2 (hkeeps.live _ _ hproc).mapped
    (hfresh₂.unused _ _ hproc)
  · have hstep₂ : Step id supply s (.copy 0x2000 0x80014000 2 0x1000)
        (s.add 0x2000 (u₂, child)) :=
      ⟨⟨hfresh₂, by simp [hproc]⟩, perform_copy hproc hu₂⟩
    rw [hc, hd, hs] at hbuilt₂
    obtain ⟨⟨-, hchild, -⟩, ⟨t₂, -, hgrown₂, htables₂, hmemory₂⟩, -⟩ := hbuilt₂
    have hfree : (newProcess s.world 0x80014000 2).1.free.length = 2 := left_small hmemory hgrown
    obtain ⟨virt, hnull⟩ := hgrown₂.null (by rw [hfree]; decide)
    refine ⟨_, proc, child, hrun₁.snoc hstep₂, ⟨?_, htable⟩, ⟨?_, hchild⟩, virt, ?_⟩
    · exact System.add_eq_some.mpr (.inr ⟨by decide, hproc⟩)
    · exact System.add_eq_some.mpr (.inl ⟨rfl, rfl⟩)
    · exact (walk_congr htables₂ hmemory₂ _ _).trans hnull
  · rw [hrequests] at hcause
    exact absurd hcause (secondMapped_ok (by decide +kernel) ht htables hmemory)

/-- The null pages are no pages of the pool, and the five pages of the first process are back when
it is destroyed. -/
theorem dry_accounted : ∃ s, Run (Step id supply) (bare 7)
    [.create 0x1000 0x80010000 1 smallHeader fun _ => 0, .copy 0x2000 0x80014000 2 0x1000,
      .destroy 0x1000] s ∧
    (∃ virt, s.maps 0x2000 virt = some 0) ∧
    Accounted (lastPages 7).pageStack.elements (lastPages 7).pageStack.capacity s := by
  have hfilled : Filled (lastPages 7) := lastPages_filled (by decide)
  obtain ⟨s, proc, child, hrun, ⟨hproc, htable⟩, ⟨hchild, htable'⟩, virt, hnull⟩ := copied_small
  have hkeeps := run_keeps heapPages_supply hfilled hrun
  obtain ⟨u, hu, hdestroyed⟩ :=
    destroyProcess_spec heapPages_supply hkeeps.valid (hkeeps.live _ _ hproc)
  have hstep : Step id supply s (.destroy 0x1000) (s.remove 0x1000 u) :=
    ⟨by simp [Action.Enabled, hproc], perform_destroy hproc hu⟩
  have hafter := hrun.snoc hstep
  refine ⟨_, hafter, ⟨virt, ?_⟩, (run_accounted heapPages_supply hfilled hafter).1⟩
  have hother : (s.remove 0x1000 u).processes 0x2000 = some child :=
    System.remove_eq_some.mpr ⟨by decide, hchild⟩
  rw [System.maps, hother, Option.bind_some, htable']
  change u.walk _ _ = _
  rw [hdestroyed.walk, if_neg (by rw [htable]; decide)]
  exact hnull

end WagtailProcess
