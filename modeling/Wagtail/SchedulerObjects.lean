import Wagtail.Scheduler

/-!
# What the scheduler reaches for exists

The pointers between processes and wait blocks, apart from the registers and
exit codes that no step follows. Every block of a process names that process as
its caller, and every block that still listens for a termination is active; so
no function of the scheduler reaches for a deleted object.
-/
namespace WagtailScheduler

open WagtailKqueue
open WagtailMmu

variable {k k' : Kernel} {p q w : Nat} {proc : Process} {b : Waitblock}

/-! ## Pointers -/

/-- The part of a process that other steps follow or look at. -/
structure Links where
  block : Nat
  children : Kqueue Nat
  terminationListeners : List Listener
  childTerminationListener : Nat
  addrspace : Addrspace
  deriving DecidableEq, Repr

def Process.links (proc : Process) : Links where
  block := proc.block
  children := proc.children
  terminationListeners := proc.terminationListeners.elements
  childTerminationListener := proc.childTerminationListener
  addrspace := proc.addrspace

def Kernel.links (k : Kernel) (p : Nat) : Option Links := (k.process p).map Process.links

theorem links_eq (h : k.process p = some proc) : k.links p = some proc.links := by
  rw [Kernel.links, h, Option.map_some]

theorem exists_process {links : Links} (h : k.links p = some links) :
    ∃ proc, k.process p = some proc ∧ proc.links = links :=
  Option.map_eq_some_iff.mp h

/-- The objects in memory fit together. -/
structure Objects (links : Nat → Option Links) (waitblock : Nat → Option Waitblock) : Prop where
  null : links 0 = none
  block : ∀ p l, links p = some l → l.block ≠ 0 →
    ∃ b, waitblock l.block = some b ∧ b.caller = p
  listener : ∀ p l, links p = some l → ∀ e ∈ l.terminationListeners,
    ∃ w b, e = .waitblock w ∧ waitblock w = some b ∧ b.active = true
  unique : ∀ p l, links p = some l → ∀ q m, links q = some m →
    ∀ e ∈ l.terminationListeners, e ∈ m.terminationListeners → p = q
  childless : ∀ p l, links p = some l → l.children = .empty ∧ l.childTerminationListener = 0

/-- What the constructors of a process leave in it, whatever its class. -/
def Process.Constructed (proc : Process) : Prop :=
  proc.block = 0 ∧ proc.children = .empty ∧ proc.terminationListeners = .empty ∧
    proc.childTerminationListener = 0

/-- A new process has nothing to do with the others. -/
theorem Objects.add {links : Nat → Option Links} {waitblock : Nat → Option Waitblock}
    (ho : Objects links waitblock) (hp : p ≠ 0) (hfree : links p = none)
    (hproc : proc.Constructed) : Objects (Function.update links p (some proc.links)) waitblock := by
  obtain ⟨hblock, hchildren, hlisteners, hchild⟩ := hproc
  have hempty : proc.links.terminationListeners = [] := by
    rw [Process.links, hlisteners]
    rfl
  have hcases : ∀ q l, Function.update links p (some proc.links) q = some l →
      q = p ∧ l = proc.links ∨ q ≠ p ∧ links q = some l := by
    intro q l hq
    by_cases he : q = p
    · subst he
      exact Or.inl ⟨rfl, by simpa using hq.symm⟩
    · exact Or.inr ⟨he, by rwa [Function.update_of_ne he] at hq⟩
  constructor
  · rw [Function.update_of_ne hp.symm, ho.null]
  · intro q l hq h0
    rcases hcases q l hq with ⟨-, rfl⟩ | ⟨-, hq'⟩
    · exact absurd hblock h0
    · exact ho.block q l hq' h0
  · intro q l hq e he
    rcases hcases q l hq with ⟨-, rfl⟩ | ⟨-, hq'⟩
    · simp [hempty] at he
    · exact ho.listener q l hq' e he
  · intro q l hq r m hr e hqe hre
    rcases hcases q l hq with ⟨-, rfl⟩ | ⟨-, hq'⟩
    · simp [hempty] at hqe
    · rcases hcases r m hr with ⟨-, rfl⟩ | ⟨-, hr'⟩
      · simp [hempty] at hre
      · exact ho.unique q l hq' r m hr' e hqe hre
  · intro q l hq
    rcases hcases q l hq with ⟨-, rfl⟩ | ⟨-, hq'⟩
    · exact ⟨hchildren, hchild⟩
    · exact ho.childless q l hq'

/-! ## Functions that only touch what no step follows -/

theorem modifyProcess_eq (h : k.process p = some proc) (f : Process → Process) :
    k.modifyProcess p f =
      some { k with process := Function.update k.process p (some (f proc)) } := by
  rw [Kernel.modifyProcess, h, Option.map_some]

theorem modifyWaitblock_eq (h : k.waitblock w = some b) (f : Waitblock → Waitblock) :
    k.modifyWaitblock w f =
      some { k with waitblock := Function.update k.waitblock w (some (f b)) } := by
  rw [Kernel.modifyWaitblock, h, Option.map_some]

theorem links_update (proc' : Process) :
    Kernel.links { k with process := Function.update k.process p (some proc') } =
      Function.update k.links p (some proc'.links) := by
  funext q
  by_cases hq : q = p
  · subst hq
    simp [Kernel.links]
  · simp [Kernel.links, Function.update_of_ne hq]

/-- A process is changed outside of its links: the whole map of links stays. -/
theorem modifyProcess_same (h : k.process p = some proc) {f : Process → Process}
    (hf : (f proc).links = proc.links) :
    ∃ process', k.modifyProcess p f = some { k with process := process' } ∧
      Kernel.links { k with process := process' } = k.links := by
  refine ⟨_, modifyProcess_eq h f, ?_⟩
  rw [links_update, hf]
  exact Function.update_eq_self_iff.mpr (links_eq h).symm

theorem storeContext_spec (h : k.registerBlock ≠ 0 → k.links k.registerBlock ≠ none)
    (registers : Registers) :
    ∃ process', storeContext k registers = some { k with process := process' } ∧
      Kernel.links { k with process := process' } = k.links := by
  by_cases h0 : k.registerBlock = 0
  · exact ⟨k.process, by rw [storeContext, if_pos h0], rfl⟩
  · obtain ⟨l, hl⟩ := Option.ne_none_iff_exists'.mp (h h0)
    obtain ⟨proc, hproc, -⟩ := exists_process hl
    rw [storeContext, if_neg h0]
    exact modifyProcess_same hproc rfl

/-! ## Terminations -/

/-- Telling wait blocks about a termination makes them inactive and touches nothing else. -/
theorem notify_spec (hproc : k.process p = some proc) (listeners : List Listener)
    (hall : ∀ e ∈ listeners, ∃ w b, e = .waitblock w ∧ k.waitblock w = some b) :
    listeners.foldlM (processTerminated · p ·) k =
      some { k with
        waitblock := fun w =>
          if .waitblock w ∈ listeners then
            (k.waitblock w).map (·.processTerminated proc)
          else k.waitblock w } := by
  induction listeners generalizing k with
  | nil => simp
  | cons e rest ih =>
    obtain ⟨w, b, rfl, hb⟩ := hall e (by simp)
    have hfirst : processTerminated k p (.waitblock w) =
        some { k with
          waitblock := Function.update k.waitblock w (some (b.processTerminated proc)) } := by
      simp only [processTerminated, hproc, Option.bind_eq_bind, Option.bind_some,
        modifyWaitblock_eq hb]
    rw [List.foldlM_cons, hfirst]
    simp only [Option.bind_eq_bind, Option.bind_some]
    rw [ih]
    · congr 2
      funext x
      by_cases hx : x = w
      · subst hx
        simp only [Function.update_self, hb, Option.map_some, List.mem_cons, true_or, if_true]
        split <;> rfl
      · simp [hx]
    · exact hproc
    · intro e he
      obtain ⟨v, c, rfl, hc⟩ := hall e (List.mem_cons_of_mem _ he)
      by_cases hv : v = w
      · exact ⟨v, _, rfl, by rw [hv]; exact Function.update_self ..⟩
      · exact ⟨v, c, rfl, by simp only [Function.update_of_ne hv, hc]⟩

/-- Deleting a process makes what listened to it inactive, and removes it. -/
theorem deleteProcess_spec (ho : Objects k.links k.waitblock) (hproc : k.process p = some proc) :
    deleteProcess k p = some { k with
      process := Function.update k.process p none
      waitblock := fun w =>
        if .waitblock w ∈ proc.terminationListeners.elements then
          (k.waitblock w).map (·.processTerminated proc)
        else k.waitblock w } := by
  have hall : ∀ e ∈ proc.terminationListeners.elements,
      ∃ w b, e = .waitblock w ∧ k.waitblock w = some b := by
    intro e he
    obtain ⟨w, b, hw, hb, -⟩ := ho.listener p _ (links_eq hproc) e he
    exact ⟨w, b, hw, hb⟩
  simp only [deleteProcess, hproc, Option.bind_eq_bind, Option.bind_some, notify_spec hproc _ hall]

theorem Objects.delete (ho : Objects k.links k.waitblock) (hproc : k.process p = some proc)
    (hk : deleteProcess k p = some k') : Objects k'.links k'.waitblock := by
  rw [deleteProcess_spec ho hproc, Option.some.injEq] at hk
  subst hk
  have hlinks : ∀ q l, Kernel.links { k with process := Function.update k.process p none } q =
      some l → q ≠ p ∧ k.links q = some l := by
    intro q l hq
    by_cases he : q = p
    · subst he
      simp [Kernel.links] at hq
    · exact ⟨he, by simpa [Kernel.links, Function.update_of_ne he] using hq⟩
  constructor
  · by_cases he : (0 : Nat) = p
    · subst he
      simp [Kernel.links]
    · simpa [Kernel.links, Function.update_of_ne he] using ho.null
  · intro q l hq h0
    obtain ⟨b, hb, hcaller⟩ := ho.block q l (hlinks q l hq).2 h0
    by_cases hmem : Listener.waitblock l.block ∈ proc.terminationListeners.elements
    · exact ⟨b.processTerminated proc, by simp only [if_pos hmem, hb, Option.map_some], hcaller⟩
    · exact ⟨b, by simp only [if_neg hmem, hb], hcaller⟩
  · intro q l hq e he
    obtain ⟨hne, hql⟩ := hlinks q l hq
    obtain ⟨w, b, rfl, hb, hactive⟩ := ho.listener q l hql e he
    -- what listens to another process did not listen to this one
    have hmem : Listener.waitblock w ∉ proc.terminationListeners.elements := by
      intro hmem
      exact hne (ho.unique q l hql p _ (links_eq hproc) _ he hmem)
    exact ⟨w, b, rfl, by simp only [if_neg hmem, hb], hactive⟩
  · intro q l hq r m hr
    exact ho.unique q l (hlinks q l hq).2 r m (hlinks r m hr).2
  · exact fun q l hq => ho.childless q l (hlinks q l hq).2

/-! ## Waiting -/

theorem findProcess_spec (pid : Nat) {queue : List Nat}
    (hall : ∀ q ∈ queue, k.links q ≠ none) :
    findProcess k pid queue = some 0 ∨
      ∃ q ∈ queue, ∃ proc, k.process q = some proc ∧ findProcess k pid queue = some q := by
  induction queue with
  | nil => exact Or.inl rfl
  | cons q rest ih =>
    obtain ⟨l, hl⟩ := Option.ne_none_iff_exists'.mp (hall q (by simp))
    obtain ⟨proc, hproc, -⟩ := exists_process hl
    simp only [findProcess, hproc, Option.bind_eq_bind, Option.bind_some]
    by_cases hpid : proc.pid = pid
    · exact Or.inr ⟨q, by simp, proc, hproc, by rw [if_pos hpid]⟩
    · rw [if_neg hpid]
      rcases ih (fun r hr => hall r (List.mem_cons_of_mem _ hr)) with h0 | ⟨r, hr, pr, hpr, hf⟩
      · exact Or.inl h0
      · exact Or.inr ⟨r, List.mem_cons_of_mem _ hr, pr, hpr, hf⟩

theorem Objects.ne_null (ho : Objects k.links k.waitblock) (hp : k.links p ≠ none) : p ≠ 0 :=
  fun he => hp (he ▸ ho.null)

/-- The process `p` has got the block `w`, which may listen to another process. -/
structure GetsBlock (links links' : Nat → Option Links) (p w : Nat) (l : Links)
    (target : Option Nat) : Prop where
  target_ne : ∀ t, target = some t → t ≠ p
  self : links' p = some { l with block := w }
  other : ∀ q, q ≠ p → links' q = (links q).map fun m =>
    if target = some q then
      { m with terminationListeners := .waitblock w :: m.terminationListeners }
    else m

/-- Where the links of a process come from. -/
theorem GetsBlock.links {links links' : Nat → Option Links} {l m : Links} {target : Option Nat}
    {q : Nat} (h : GetsBlock links links' p w l target) (hp : links p = some l)
    (hq : links' q = some m) :
    ∃ m₀, links q = some m₀ ∧
      (m.children = m₀.children ∧ m.childTerminationListener = m₀.childTerminationListener) ∧
      (m.block = if q = p then w else m₀.block) ∧
      m.terminationListeners = if target = some q then
        .waitblock w :: m₀.terminationListeners else m₀.terminationListeners := by
  by_cases he : q = p
  · subst he
    rw [h.self, Option.some.injEq] at hq
    subst hq
    have hne : target ≠ some q := fun ht => h.target_ne q ht rfl
    exact ⟨l, hp, ⟨rfl, rfl⟩, by simp, by simp [hne]⟩
  · rw [h.other q he, Option.map_eq_some_iff] at hq
    obtain ⟨m₀, hm₀, rfl⟩ := hq
    refine ⟨m₀, hm₀, ?_, ?_, ?_⟩ <;> split <;> simp_all

theorem Objects.fresh {links : Nat → Option Links} {waitblock : Nat → Option Waitblock}
    {m : Links} {q : Nat} (ho : Objects links waitblock) (hw : waitblock w = none)
    (hq : links q = some m) : Listener.waitblock w ∉ m.terminationListeners := by
  intro hmem
  obtain ⟨v, c, hv, hc, -⟩ := ho.listener q m hq _ hmem
  obtain rfl : w = v := by simpa using hv
  rw [hw] at hc
  exact absurd hc (by simp)

/-- Giving a process a block at a fresh address, which may listen to one process. -/
theorem Objects.block_new {links links' : Nat → Option Links} {waitblock : Nat → Option Waitblock}
    {l : Links} {target : Option Nat} (ho : Objects links waitblock) (hp : links p = some l)
    (hw : waitblock w = none) (hcaller : b.caller = p)
    (hactive : target ≠ none → b.active = true) (hgets : GetsBlock links links' p w l target) :
    Objects links' (Function.update waitblock w (some b)) := by
  have hkeep : ∀ v c, waitblock v = some c → Function.update waitblock w (some b) v = some c := by
    intro v c hc
    rw [Function.update_of_ne (by rintro rfl; rw [hw] at hc; exact absurd hc (by simp)), hc]
  constructor
  · have h0 : (0 : Nat) ≠ p := by
      rintro rfl
      rw [ho.null] at hp
      exact absurd hp (by simp)
    rw [hgets.other 0 h0, ho.null, Option.map_none]
  · intro q m hq h0
    obtain ⟨m₀, hm₀, -, hblock, -⟩ := hgets.links hp hq
    rw [hblock] at h0 ⊢
    by_cases he : q = p
    · exact ⟨b, by rw [if_pos he, Function.update_self], hcaller.trans he.symm⟩
    · rw [if_neg he] at h0 ⊢
      obtain ⟨c, hc, hq'⟩ := ho.block q m₀ hm₀ h0
      exact ⟨c, hkeep _ c hc, hq'⟩
  · intro q m hq e he
    obtain ⟨m₀, hm₀, -, -, hlist⟩ := hgets.links hp hq
    have hold : e ∈ m₀.terminationListeners → ∃ v c, e = .waitblock v ∧
        Function.update waitblock w (some b) v = some c ∧ c.active = true := by
      intro he
      obtain ⟨v, c, hv, hc, hact⟩ := ho.listener q m₀ hm₀ e he
      exact ⟨v, c, hv, hkeep v c hc, hact⟩
    rw [hlist] at he
    split at he
    next ht =>
      rcases List.mem_cons.mp he with rfl | he
      · exact ⟨w, b, rfl, Function.update_self .., hactive (by simp [ht])⟩
      · exact hold he
    next => exact hold he
  · intro q m hq r n hr e hqe hre
    obtain ⟨m₀, hm₀, -, -, hqlist⟩ := hgets.links hp hq
    obtain ⟨n₀, hn₀, -, -, hrlist⟩ := hgets.links hp hr
    by_cases hw' : e = .waitblock w
    · subst hw'
      have hq' : target = some q := by
        by_contra hne
        rw [hqlist, if_neg hne] at hqe
        exact ho.fresh hw hm₀ hqe
      have hr' : target = some r := by
        by_contra hne
        rw [hrlist, if_neg hne] at hre
        exact ho.fresh hw hn₀ hre
      exact Option.some.inj (hq'.symm.trans hr')
    · refine ho.unique q m₀ hm₀ r n₀ hn₀ e ?_ ?_
      · rw [hqlist] at hqe
        split at hqe <;> simp_all
      · rw [hrlist] at hre
        split at hre <;> simp_all
  · intro q m hq
    obtain ⟨m₀, hm₀, hsame, -, -⟩ := hgets.links hp hq
    rw [hsame.1, hsame.2]
    exact ho.childless q m₀ hm₀

/-- What the constructor of a wait block does: the new object listens to at most one other
process of the queue, and is active only then. -/
theorem newWaitblock_spec (w pid statusLoc : Nat) (memory : Waitblock)
    (ho : Objects k.links k.waitblock) (hproc : k.process p = some proc)
    (hqueue : ∀ q ∈ k.processQueue.elements, k.links q ≠ none)
    (hp : p ∉ k.processQueue.elements) :
    ∃ b, b.caller = p ∧
      (newWaitblock k w memory pid statusLoc p =
          some { k with waitblock := Function.update k.waitblock w (some b) } ∨
        b.active = true ∧ ∃ q other, q ≠ p ∧ k.process q = some other ∧
          newWaitblock k w memory pid statusLoc p = some { k with
            waitblock := Function.update k.waitblock w (some b)
            process := Function.update k.process q (some { other with
              terminationListeners := other.terminationListeners.pushFront (.waitblock w) }) }) := by
  by_cases hany : pid = 0xffffffff ∨ pid = 0
  · have hlen : proc.children.length = 0 := by
      have hchildren : proc.children = .empty := (ho.childless p _ (links_eq hproc)).1
      rw [hchildren]
      rfl
    refine ⟨⟨pid, statusLoc, memory.exitCode, p, 0xffffffff, false⟩, rfl, Or.inl ?_⟩
    simp only [newWaitblock, if_pos hany, hproc, Option.bind_eq_bind, Option.bind_some, hlen,
      ne_eq, not_true_eq_false, if_false]
  · rcases findProcess_spec pid hqueue with h0 | ⟨q, hq, other, hother, hfind⟩
    · refine ⟨⟨pid, statusLoc, memory.exitCode, p, 0xffffffff, false⟩, rfl, Or.inl ?_⟩
      simp only [newWaitblock, if_neg hany, getProcess, h0, Option.bind_eq_bind, Option.bind_some,
        if_true]
    · have hq0 : q ≠ 0 := ho.ne_null (hqueue q hq)
      have hqp : q ≠ p := by
        rintro rfl
        exact hp hq
      refine ⟨⟨pid, statusLoc, memory.exitCode, p, memory.terminatedPid, true⟩, rfl,
        Or.inr ⟨rfl, q, other, hqp, hother, ?_⟩⟩
      simp only [newWaitblock, if_neg hany, getProcess, hfind, Option.bind_eq_bind,
        Option.bind_some, if_neg hq0]
      refine (modifyProcess_eq ?_ _).trans rfl
      exact hother

/-- A wait, once its block has been constructed. -/
theorem syscallWait_eq {k₁ : Kernel} {pid statusLoc : Nat} {memory : Waitblock}
    (hnew : newWaitblock k w memory pid statusLoc k.currentProcess = some k₁)
    (hcur : k₁.currentProcess = k.currentProcess) (hproc : k₁.process k.currentProcess = some proc) :
    syscallWait k pid statusLoc w memory = some { k₁ with
      process := Function.update k₁.process k.currentProcess (some { proc with block := w })
      processQueue := k₁.processQueue.pushBack k.currentProcess
      currentProcess := 0
      registerBlock := 0 } := by
  simp only [syscallWait, hnew, Option.bind_eq_bind, Option.bind_some, modifyProcess_eq hproc,
    Kernel.pushBack, hcur]

/-- A wait of the current process: it ends up in the queue with a block of its own. -/
theorem syscallWait_spec (pid statusLoc : Nat) (memory : Waitblock)
    (ho : Objects k.links k.waitblock) (hproc : k.process k.currentProcess = some proc)
    (hqueue : ∀ q ∈ k.processQueue.elements, k.links q ≠ none)
    (hcur : k.currentProcess ∉ k.processQueue.elements) (hw : k.waitblock w = none) :
    ∃ k', syscallWait k pid statusLoc w memory = some k' ∧
      Objects k'.links k'.waitblock ∧ (∀ p, k'.links p = none ↔ k.links p = none) ∧
      k'.processQueue = k.processQueue.pushBack k.currentProcess ∧
      k'.currentProcess = 0 ∧ k'.registerBlock = 0 ∧ k'.halted = k.halted := by
  obtain ⟨b, hcaller, hnew | ⟨hactive, q, other, hq, hother, hnew⟩⟩ :=
    newWaitblock_spec w pid statusLoc memory ho hproc hqueue hcur
  · refine ⟨_, syscallWait_eq hnew rfl hproc, ?_, ?_, rfl, rfl, rfl, rfl⟩
    · have hnone : (none : Option Nat) ≠ none → b.active = true := fun h => absurd rfl h
      refine ho.block_new (links_eq hproc) hw hcaller hnone ⟨?_, ?_, ?_⟩
      · simp
      · simp [Kernel.links, Process.links]
      · intro q hq
        simp only [Kernel.links, Function.update_of_ne hq, reduceCtorEq, if_false, Option.map_id']
    · intro p
      by_cases hp : p = k.currentProcess
      · subst hp
        simp [Kernel.links, hproc]
      · simp [Kernel.links, Function.update_of_ne hp]
  · have hproc' : Function.update k.process q (some { other with
        terminationListeners := other.terminationListeners.pushFront (.waitblock w) })
          k.currentProcess = some proc := by
      rw [Function.update_of_ne hq.symm, hproc]
    refine ⟨_, syscallWait_eq hnew rfl hproc', ?_, ?_, rfl, rfl, rfl, rfl⟩
    · have hsome : some q ≠ none → b.active = true := fun _ => hactive
      refine ho.block_new (links_eq hproc) hw hcaller hsome ⟨?_, ?_, ?_⟩
      · simpa using hq
      · simp [Kernel.links, Process.links]
      · intro r hr
        by_cases hrq : r = q
        · subst hrq
          simp [Kernel.links, Function.update_of_ne hr, hother, Process.links, Kqueue.pushFront]
        · simp only [Kernel.links, Function.update_of_ne hr, Function.update_of_ne hrq,
            Option.some.injEq, Ne.symm hrq, if_false, Option.map_id']
    · intro p
      by_cases hp : p = k.currentProcess
      · subst hp
        simp [Kernel.links, hproc]
      · by_cases hpq : p = q
        · subst hpq
          simp [Kernel.links, Function.update_of_ne hp, hother]
        · simp [Kernel.links, Function.update_of_ne hp, Function.update_of_ne hpq]

/-! ## The end of a wait -/

/-- The return of a block writes registers and user memory only. -/
theorem blockReturn_spec (hb : k.waitblock w = some b) (hproc : k.process b.caller = some proc) :
    ∃ process' stores', blockReturn k w =
        some { k with process := process', stores := stores' } ∧
      Kernel.links { k with process := process' } = k.links := by
  obtain ⟨process', hmod, hlinks⟩ := modifyProcess_same hproc (f := fun proc =>
    { proc with
      registers := { proc.registers with r := Function.update proc.registers.r 0 b.terminatedPid } })
    rfl
  by_cases h0 : b.statusLoc = 0
  · refine ⟨process', k.stores, ?_, hlinks⟩
    simp only [blockReturn, hb, Option.bind_eq_bind, Option.bind_some, hmod, h0, ne_eq,
      not_true_eq_false, if_false]
  · refine ⟨process', k.stores ++ [⟨k.mmu.currentApplicationTable, b.statusLoc, b.exitCode⟩],
      ?_, hlinks⟩
    simp only [blockReturn, hb, Option.bind_eq_bind, Option.bind_some, hmod, h0, ne_eq,
      not_false_eq_true, if_true]

/-- Deleting a block takes it out of memory; no process listened through it. -/
theorem deleteWaitblock_spec (hb : k.waitblock w = some b)
    (hproc : k.process b.caller = some proc) (h0 : proc.childTerminationListener = 0) :
    ∃ process', deleteWaitblock k w = some { k with
        process := process'
        waitblock := Function.update k.waitblock w none } ∧
      Kernel.links { k with process := process' } = k.links := by
  by_cases hany : b.waitpid = 0xffffffff ∨ b.waitpid = 0
  · obtain ⟨process', hmod, hlinks⟩ := modifyProcess_same hproc
      (f := fun proc => { proc with childTerminationListener := 0 })
      (by simp only [Process.links, h0])
    refine ⟨process', ?_, hlinks⟩
    simp only [deleteWaitblock, hb, Option.bind_eq_bind, Option.bind_some, if_pos hany, hmod]
  · refine ⟨k.process, ?_, rfl⟩
    simp only [deleteWaitblock, hb, Option.bind_eq_bind, Option.bind_some, if_neg hany]

theorem Objects.block_delete {links : Nat → Option Links} {waitblock : Nat → Option Waitblock}
    {l : Links} (ho : Objects links waitblock) (hp : links p = some l) (hblock : l.block = w)
    (hb : waitblock w = some b) (hcaller : b.caller = p) (hactive : b.active = false) :
    Objects (Function.update links p (some { l with block := 0 }))
      (Function.update waitblock w none) := by
  have hcases : ∀ q m, Function.update links p (some { l with block := 0 }) q = some m →
      ∃ m₀, links q = some m₀ ∧ m = if q = p then { m₀ with block := 0 } else m₀ := by
    intro q m hq
    by_cases he : q = p
    · subst he
      rw [Function.update_self, Option.some.injEq] at hq
      exact ⟨l, hp, by rw [if_pos rfl, hq]⟩
    · rw [Function.update_of_ne he] at hq
      exact ⟨m, hq, by rw [if_neg he]⟩
  constructor
  · have h0 : (0 : Nat) ≠ p := by
      rintro rfl
      rw [ho.null] at hp
      exact absurd hp (by simp)
    rw [Function.update_of_ne h0, ho.null]
  · intro q m hq h0
    obtain ⟨m₀, hm₀, rfl⟩ := hcases q m hq
    by_cases he : q = p
    · simp [he] at h0
    · rw [if_neg he] at h0 ⊢
      obtain ⟨c, hc, hq'⟩ := ho.block q m₀ hm₀ h0
      have hne : m₀.block ≠ w := by
        intro hw
        rw [hw, hb, Option.some.injEq] at hc
        exact he (hq'.symm.trans (hc ▸ hcaller))
      exact ⟨c, by rw [Function.update_of_ne hne, hc], hq'⟩
  · intro q m hq e he
    obtain ⟨m₀, hm₀, rfl⟩ := hcases q m hq
    have he' : e ∈ m₀.terminationListeners := by
      split at he <;> exact he
    obtain ⟨v, c, rfl, hc, hact⟩ := ho.listener q m₀ hm₀ e he'
    have hne : v ≠ w := by
      rintro rfl
      rw [hb, Option.some.injEq] at hc
      rw [← hc, hactive] at hact
      exact Bool.false_ne_true hact
    exact ⟨v, c, rfl, by rw [Function.update_of_ne hne, hc], hact⟩
  · intro q m hq r n hr e hqe hre
    obtain ⟨m₀, hm₀, rfl⟩ := hcases q m hq
    obtain ⟨n₀, hn₀, rfl⟩ := hcases r n hr
    refine ho.unique q m₀ hm₀ r n₀ hn₀ e ?_ ?_
    · split at hqe <;> exact hqe
    · split at hre <;> exact hre
  · intro q m hq
    obtain ⟨m₀, hm₀, rfl⟩ := hcases q m hq
    split <;> exact ho.childless q m₀ hm₀

/-- A process that is chosen to run and not blocked loses its block. -/
theorem releaseBlock_spec (ho : Objects k.links k.waitblock) (hproc : k.process p = some proc)
    (hblocking : isBlocking k p = some false) :
    ∃ process' waitblock' stores', releaseBlock k p =
        some { k with process := process', waitblock := waitblock', stores := stores' } ∧
      Kernel.links { k with process := process' } =
        Function.update k.links p (some { proc.links with block := 0 }) ∧
      Objects (Function.update k.links p (some { proc.links with block := 0 })) waitblock' := by
  by_cases h0 : proc.block = 0
  · have hsame : Function.update k.links p (some { proc.links with block := 0 }) = k.links := by
      refine Function.update_eq_self_iff.mpr ?_
      rw [links_eq hproc, Process.links, h0]
    refine ⟨k.process, k.waitblock, k.stores, ?_, hsame.symm, by rw [hsame]; exact ho⟩
    simp only [releaseBlock, hproc, Option.bind_eq_bind, Option.bind_some, if_pos h0]
  · obtain ⟨b, hb, hcaller⟩ := ho.block p _ (links_eq hproc) h0
    have hactive : b.active = false := by
      have hb' : k.waitblock proc.block = some b := hb
      simpa only [isBlocking, hproc, Option.bind_eq_bind, Option.bind_some, if_neg h0, hb',
        Option.some.injEq] using hblocking
    have hb' : k.waitblock proc.block = some b := hb
    obtain ⟨process₁, stores₁, hreturn, hlinks₁⟩ := blockReturn_spec hb' (hcaller ▸ hproc)
    obtain ⟨proc₁, hproc₁, hsame₁⟩ := exists_process (k := { k with process := process₁ }) (p := p)
      (by rw [hlinks₁]; exact links_eq hproc)
    have hchild : proc₁.childTerminationListener = 0 := by
      have hlisten := (ho.childless p _ (links_eq hproc)).2
      rw [← hsame₁] at hlisten
      exact hlisten
    obtain ⟨process₂, hdelete, hlinks₂⟩ := deleteWaitblock_spec
      (k := { k with process := process₁, stores := stores₁ }) hb' (hcaller ▸ hproc₁) hchild
    obtain ⟨proc₂, hproc₂, hsame₂⟩ := exists_process (k := { k with process := process₂ }) (p := p)
      (by rw [← links_eq hproc, ← hlinks₁]; exact congrFun hlinks₂ p)
    have hlinks : Kernel.links { k with process := process₂ } = k.links := hlinks₂.trans hlinks₁
    refine ⟨Function.update process₂ p (some { proc₂ with block := 0 }),
      Function.update k.waitblock proc.block none, stores₁, ?_, ?_,
      ho.block_delete (links_eq hproc) rfl hb hcaller hactive⟩
    · simp only [releaseBlock, hproc, Option.bind_eq_bind, Option.bind_some, if_neg h0, hreturn,
        hdelete]
      refine (modifyProcess_eq ?_ _).trans rfl
      exact hproc₂
    · have hblock : ({ proc₂ with block := 0 } : Process).links = { proc₂.links with block := 0 } :=
        rfl
      rw [← hlinks, ← hsame₂, ← hblock]
      exact links_update (k := { k with process := process₂ }) _

end WagtailScheduler
