import Wagtail.SchedulerQueue

/-!
# Waiting for a process

A process that waits for another one sleeps in the queue, with its block, until
it is chosen to run. Only a termination that the block is told of changes the
block; so the wait ends with the process it names, and answers with its PID and
exit code.
-/
namespace WagtailScheduler

open WagtailKqueue
open WagtailMmu
open Runs (Run Guarded)

variable {virtualToPhysical : Nat → Nat} {k t : Kernel} {s s' : View} {c p q w : Nat} {a : Action}
  {proc : Process} {b : Waitblock}

/-! ## What a step does to a process -/

/-- The children of `q` after the action: forks put one in front, terminations take one out. -/
def childrenAfter (s : View) (a : Action) (q : Nat) (children : Kqueue Nat) : Kqueue Nat :=
  match a with
  | .event (.exit _ _) =>
    if ∃ proc ∈ s.process s.currentProcess, .process q ∈ proc.terminationListeners.elements then
      children.remove s.currentProcess
    else children
  | .fork _ child _ true true _ =>
    if q = s.currentProcess then children.pushFront child else children
  | .fork _ child _ true false _ =>
    if q = s.currentProcess then (children.pushFront child).remove child else children
  | _ => children

/-- A process that does not terminate is the same but for its children, what listens to it, and
its block when it waits or is chosen to run. -/
structure Keeps (s : View) (a : Action) (s' : View) (q : Nat) (old new : Process) : Prop where
  pid : new.pid = old.pid
  addrspace : new.addrspace = old.addrspace
  children : new.children = childrenAfter s a q old.children
  listeners : ∀ e ∈ old.terminationListeners.elements, e ∈ new.terminationListeners.elements
  parents : ∀ p, .process p ∈ new.terminationListeners.elements →
    .process p ∈ old.terminationListeners.elements
  asleep : q ≠ s.currentProcess → q ≠ s'.currentProcess →
    new.block = old.block ∧ new.childTerminationListener = old.childTerminationListener

theorem keeps_refl {old : Process} (hchildren : childrenAfter s a q old.children = old.children) :
    Keeps s a s' q old old :=
  ⟨rfl, rfl, hchildren.symm, fun _ he => he, fun _ he => he, fun _ _ => ⟨rfl, rfl⟩⟩

theorem forked_other {P : Nat → Option Process} {child : Nat} {old father : Process}
    (proc : Process) (linked : Bool) (hq : P q = some old) (hchild : q ≠ child) (hc : P c = some father) :
    forked P c child father proc linked q = some (if linked = true ∧ q = c then
      { old with children := old.children.pushFront child } else old) := by
  cases linked with
  | false => simp [forked, hchild, hq]
  | true =>
    by_cases hqc : q = c
    · subst hqc
      obtain rfl := Option.some.inj (hq.symm.trans hc)
      simp [forked]
    · simp [forked, hchild, hqc, hq]

theorem moves_keeps {old : Process} (hm : Moves s a s')
    (hq : s.process q = some old) (hnot : ∀ x ∈ exitsOf s a, x.process ≠ q) :
    ∃ new, s'.process q = some new ∧ Keeps s a s' q old new := by
  have hfree : ∀ {child : Nat} {other : Process}, Creates s child other → q ≠ child := by
    rintro child other hc rfl
    rw [hc.free] at hq
    cases hq
  cases hm with
  | schedule hc =>
    exact ⟨old, (Function.update_of_ne (hfree hc) ..).trans hq, keeps_refl rfl⟩
  | halt => exact ⟨old, hq, keeps_refl rfl⟩
  | putBack => exact ⟨old, hq, keeps_refl rfl⟩
  | run => exact ⟨old, hq, keeps_refl rfl⟩
  | @release _ next _ chosen _ _ hnext =>
    by_cases hqn : q = next
    · subst hqn
      obtain rfl := Option.some.inj (hq.symm.trans hnext)
      refine ⟨_, Function.update_self .., ⟨rfl, rfl, rfl, fun _ he => he, fun _ he => he, ?_⟩⟩
      exact fun _ hne => absurd rfl hne
    · exact ⟨old, (Function.update_of_ne hqn ..).trans hq, keeps_refl rfl⟩
  | @exit registers retval current _ _ hcurrent _ ht =>
    have hqc : q ≠ s.currentProcess := by
      intro he
      exact hnot ⟨s.currentProcess, current.pid, retval, current.terminationListeners.elements⟩
        (by simp [exitsOf, hcurrent]) he.symm
    by_cases hmem : .process q ∈ current.terminationListeners.elements
    · have hnew := ht.parent q hqc hmem
      rw [hq, Option.map_some] at hnew
      refine ⟨_, hnew, rfl, rfl, ?_, fun _ he => he, fun _ he => he, fun _ _ => ⟨rfl, rfl⟩⟩
      rw [childrenAfter, if_pos ⟨current, hcurrent, hmem⟩]
      rfl
    · refine ⟨old, (ht.other q hqc hmem).trans hq, keeps_refl ?_⟩
      rw [childrenAfter, if_neg]
      rintro ⟨proc, hproc, hlisten⟩
      obtain rfl := Option.some.inj (hcurrent.symm.trans hproc)
      exact hmem hlisten
  | @wait _ _ _ w _ current _ target _ _ _ _ _ hcurrent _ _ _ _ hP =>
    by_cases hqc : q = s.currentProcess
    · subst hqc
      obtain rfl := Option.some.inj (hq.symm.trans hcurrent)
      refine ⟨_, hP.self, rfl, rfl, rfl, fun _ he => he, fun _ he => he, ?_⟩
      exact fun hne => absurd rfl hne
    · have hnew := hP.other q hqc
      rw [hq, Option.map_some] at hnew
      refine ⟨_, hnew, ?_⟩
      split_ifs
      · refine ⟨rfl, rfl, rfl, fun e he => List.mem_cons_of_mem _ he, fun p hp => ?_,
          fun _ _ => ⟨rfl, rfl⟩⟩
        exact (List.mem_cons.mp hp).resolve_left (by simp)
      · exact keeps_refl rfl
  | @fork _ child _ other father linked hcurrent hc _ =>
    refine ⟨_, forked_other _ _ hq (hfree hc) hcurrent, ?_⟩
    cases linked with
    | false =>
      rw [if_neg (by simp)]
      exact keeps_refl rfl
    | true =>
      by_cases hqc : q = s.currentProcess
      · rw [if_pos ⟨rfl, hqc⟩]
        refine ⟨rfl, rfl, ?_, fun _ he => he, fun _ he => he, fun _ _ => ⟨rfl, rfl⟩⟩
        rw [childrenAfter, if_pos hqc]
      · rw [if_neg (fun h => hqc h.2)]
        refine keeps_refl ?_
        rw [childrenAfter, if_neg hqc]
  | @abort _ child _ other father _ linked _ _ hcurrent hc _ ht =>
    have hforked := forked_other other.bare linked hq (hfree hc) hcurrent
    cases linked with
    | false =>
      rw [if_neg (by simp)] at hforked
      exact ⟨old, (ht.other q (hfree hc) (by simp)).trans hforked, keeps_refl rfl⟩
    | true =>
      by_cases hqc : q = s.currentProcess
      · have hnew := ht.parent q (hfree hc) (by simp [hqc])
        rw [hforked, if_pos ⟨rfl, hqc⟩, Option.map_some] at hnew
        refine ⟨_, hnew, ?_⟩
        refine ⟨rfl, rfl, ?_, fun _ he => he, fun _ he => he, fun _ _ => ⟨rfl, rfl⟩⟩
        rw [childrenAfter, if_pos hqc]
        rfl
      · rw [if_neg (fun h => hqc h.2)] at hforked
        refine ⟨old, (ht.other q (hfree hc) (by simpa using hqc)).trans hforked, keeps_refl ?_⟩
        rw [childrenAfter, if_neg hqc]

/-- What is in the queue does not terminate. -/
theorem moves_exits (hv : Valid s) (hm : Moves s a s') (hc : c ∈ s.queue) :
    ∀ x ∈ exitsOf s a, x.process ≠ c := by
  cases hm with
  | exit hcurrent _ _ =>
    intro x hx
    simp only [exitsOf, hcurrent, Option.toList_some, List.map_cons, List.map_nil,
      List.mem_singleton] at hx
    rw [hx]
    rintro rfl
    exact hv.notQueued hc
  | abort hcurrent hcreates _ _ =>
    intro x hx
    rw [List.mem_singleton.mp hx]
    rintro rfl
    exact hv.queued hc hcreates.free
  | schedule => simp [exitsOf]
  | halt => simp [exitsOf]
  | putBack => simp [exitsOf]
  | run => simp [exitsOf]
  | release => simp [exitsOf]
  | wait => simp [exitsOf]
  | fork => simp [exitsOf]

/-! ## A sleeping process -/

/-- What a block becomes that is told of a termination. -/
def Waitblock.told (b : Waitblock) (x : Exit) : Waitblock :=
  { b with terminatedPid := x.pid, exitCode := x.code, active := false }

/-- The process is in the queue, with this block. -/
structure Sleeps (s : View) (c w : Nat) (listener : Nat) : Prop where
  queued : c ∈ s.queue
  block : ∃ proc, s.process c = some proc ∧ proc.block = w ∧
    proc.childTerminationListener = listener
  nonnull : w ≠ 0

theorem Sleeps.caller {listener : Nat} (h : Sleeps s c w listener) (hv : Valid s)
    (hb : s.waitblock w = some b) : b.caller = c := by
  obtain ⟨proc, hproc, rfl, -⟩ := h.block
  obtain ⟨b', hb', hcaller⟩ := hv.kin.block c proc hproc h.nonnull
  rwa [← Option.some.inj (hb.symm.trans hb')] at hcaller

/-- A sleeping process is not running. -/
theorem Sleeps.ne_current {listener : Nat} (h : Sleeps s c w listener) (hv : Valid s) :
    s.currentProcess ≠ c := by
  rintro rfl
  exact hv.notQueued h.queued

/-- Only the parent in question is told through the block that hears of its children. -/
theorem Sleeps.listener {listener : Nat} {parent : Process} (h : Sleeps s c w listener)
    (hv : Valid s) (hp : s.process p = some parent)
    (hlistener : parent.childTerminationListener = w) : p = c ∧ listener = w := by
  obtain ⟨heq, -⟩ := hv.kin.childListener p parent hp (hlistener ▸ h.nonnull)
  obtain ⟨b, hb, hcaller⟩ := hv.kin.block p parent hp (heq ▸ hlistener ▸ h.nonnull)
  rw [← heq, hlistener] at hb
  have hpc : p = c := hcaller.symm.trans (h.caller hv hb)
  subst hpc
  obtain ⟨proc, hproc, -, hl⟩ := h.block
  obtain rfl := Option.some.inj (hp.symm.trans hproc)
  exact ⟨rfl, hl.symm.trans hlistener⟩

/-- A child that is not usable is told of by no block. -/
theorem aborted_untold {listeners : List Listener} {linked : Bool}
    (h : Valid s) (hlisteners : listeners = if linked then [.process s.currentProcess] else []) :
    ¬ Tells s.process listeners w := by
  subst hlisteners
  rintro (hmem | ⟨q, parent, hmem, hparent, hlistener, hw⟩)
  · split_ifs at hmem <;> simp at hmem
  · have hq : q = s.currentProcess := by
      split_ifs at hmem
      · simpa using hmem
      · simp at hmem
    rw [hq] at hparent
    exact hw (hlistener.symm.trans (h.kin.unlistened hparent (h.running parent hparent)))

/-- As long as it is not chosen, a sleeping process sleeps on. -/
theorem moves_sleeps {listener : Nat} (hv : Valid s) (hm : Moves s a s')
    (h : Sleeps s c w listener) (hcur : s'.currentProcess ≠ c) : Sleeps s' c w listener := by
  obtain ⟨proc, hproc, hblock, hlistener⟩ := h.block
  have hne := h.ne_current hv
  obtain ⟨new, hnew, hkeeps⟩ := moves_keeps hm hproc (moves_exits hv hm h.queued)
  obtain ⟨hblock', hlistener'⟩ := hkeeps.asleep hne.symm hcur.symm
  refine ⟨?_, ⟨new, hnew, hblock'.trans hblock, hlistener'.trans hlistener⟩, h.nonnull⟩
  have hcandidate := ((moves_valid hv hm).live c).mpr (by simp [hnew])
  exact (mem_candidates.mp hcandidate).resolve_right fun h => hcur h.2.symm

/-- The block of a sleeping process is told of the terminations that it listens to, and of
nothing else. -/
theorem moves_block {listener : Nat} (hv : Valid s) (hm : Moves s a s')
    (h : Sleeps s c w listener) (hcur : s'.currentProcess ≠ c) :
    (∀ x ∈ exitsOf s a, Tells s.process x.listeners w →
      s'.waitblock w = (s.waitblock w).map (·.told x)) ∧
    ((∀ x ∈ exitsOf s a, ¬ Tells s.process x.listeners w) → s'.waitblock w = s.waitblock w) := by
  obtain ⟨proc, hproc, hblock, -⟩ := h.block
  obtain ⟨b, hb, hcaller⟩ := hv.kin.block c proc hproc (hblock ▸ h.nonnull)
  rw [hblock] at hb
  cases hm with
  | schedule => exact ⟨by simp [exitsOf], fun _ => rfl⟩
  | halt => exact ⟨by simp [exitsOf], fun _ => rfl⟩
  | putBack => exact ⟨by simp [exitsOf], fun _ => rfl⟩
  | run => exact ⟨by simp [exitsOf], fun _ => rfl⟩
  | @release _ next _ chosen b' hc hnext h0 hb' =>
    refine ⟨by simp [exitsOf], fun _ => Function.update_of_ne ?_ ..⟩
    rintro rfl
    obtain ⟨b'', hb'', hcaller'⟩ := hv.kin.block next chosen hnext h0
    obtain rfl := Option.some.inj (hb.symm.trans hb'')
    exact hcur (hcaller'.symm.trans hcaller)
  | @exit registers retval current _ _ hcurrent _ ht =>
    have hexits : ∀ x, x ∈ exitsOf s (.event (.exit registers retval)) ↔ x =
        ⟨s.currentProcess, current.pid, retval, current.terminationListeners.elements⟩ := by
      simp [exitsOf, hcurrent]
    constructor
    · intro x hx htells
      obtain rfl := (hexits x).mp hx
      exact ht.told w htells
    · intro hnot
      exact ht.untold w (hnot _ ((hexits _).mpr rfl))
  | wait _ _ hnone =>
    refine ⟨by simp [exitsOf], fun _ => Function.update_of_ne ?_ ..⟩
    rintro rfl
    rw [hnone] at hb
    cases hb
  | fork => exact ⟨by simp [exitsOf], fun _ => rfl⟩
  | @abort _ child _ other father _ linked _ _ hcurrent hc _ ht =>
    have huntold : ∀ listeners : List Listener,
        (listeners = if linked then [.process s.currentProcess] else []) →
          ¬ Tells s.process listeners w := fun _ => aborted_untold hv
    refine ⟨fun x hx htells => ?_, fun _ => ht.untold w fun htells => ?_⟩
    · obtain rfl := List.mem_singleton.mp hx
      exact absurd htells (huntold _ rfl)
    · refine huntold _ rfl ?_
      obtain hmem | ⟨q, parent, hmem, hparent, hlistener⟩ := htells
      · exact .inl hmem
      · have hq : q = s.currentProcess := by
          split_ifs at hmem
          · simpa using hmem
          · simp at hmem
        subst hq
        refine .inr ⟨_, father, hmem, hcurrent, ?_⟩
        cases linked with
        | false => simp at hmem
        | true =>
          simp only [forked, if_true, Function.update_self, Option.some.injEq] at hparent
          rw [← hparent] at hlistener
          exact hlistener

/-- Only an interrupt chooses a sleeping process, once its block is not active; it writes the
exit code that the block has. -/
theorem moves_chosen {listener : Nat} (hv : Valid s) (hm : Moves s a s')
    (h : Sleeps s c w listener) (hcur : s'.currentProcess = c) :
    ∃ proc b, s.process c = some proc ∧ proc.block = w ∧ s.waitblock w = some b ∧
      b.active = false ∧ (∃ registers, a = .event (.interrupt registers)) ∧
      s'.stores = s.stores ++ if b.statusLoc = 0 then [] else
        [⟨proc.addrspace.table, b.statusLoc, b.exitCode⟩] := by
  obtain ⟨proc, hproc, hblock, -⟩ := h.block
  have hne := h.ne_current hv
  have hc0 : c ≠ 0 := hv.kin.ne_zero hproc
  cases hm with
  | schedule => exact absurd hcur hne
  | halt => exact absurd hcur hne
  | putBack => exact absurd hcur.symm hc0
  | run hc hnext h0 =>
    subst hcur
    obtain rfl := Option.some.inj (hproc.symm.trans hnext)
    exact absurd (hblock.symm.trans h0) h.nonnull
  | @release _ next _ chosen b hc hnext h0 hb hactive =>
    subst hcur
    obtain rfl := Option.some.inj (hproc.symm.trans hnext)
    exact ⟨proc, b, hproc, hblock, hblock ▸ hb, hactive, ⟨_, rfl⟩, rfl⟩
  | exit => exact absurd hcur.symm hc0
  | wait => exact absurd hcur.symm hc0
  | fork => exact absurd hcur hne
  | abort => exact absurd hcur hne

/-- Who terminates in a step: nobody, the current process, or a child that is not usable. -/
theorem moves_exit_cases (hm : Moves s a s') :
    exitsOf s a = [] ∨
    (∃ proc code, s.process s.currentProcess = some proc ∧ exitsOf s a =
      [⟨s.currentProcess, proc.pid, code, proc.terminationListeners.elements⟩]) ∨
    ∃ x linked, exitsOf s a = [x] ∧ s.process x.process = none ∧
      x.listeners = if linked = true then [.process s.currentProcess] else [] := by
  cases hm with
  | schedule => exact .inl rfl
  | halt => exact .inl rfl
  | putBack => exact .inl rfl
  | run => exact .inl rfl
  | release => exact .inl rfl
  | wait => exact .inl rfl
  | fork => exact .inl rfl
  | @exit _ retval proc _ _ hcurrent _ _ =>
    exact .inr (.inl ⟨proc, retval, hcurrent, by simp [exitsOf, hcurrent]⟩)
  | @abort _ _ _ _ _ _ linked _ _ _ hc _ _ => exact .inr (.inr ⟨_, linked, rfl, hc.free, rfl⟩)

/-- A block that has been told is not told again, unless it hears of any child. -/
theorem Sleeps.untold (hv : Valid s) (hm : Moves s a s') (h : Sleeps s c w 0)
    (hb : s.waitblock w = some b) (hactive : b.active = false) :
    ∀ x ∈ exitsOf s a, ¬ Tells s.process x.listeners w := by
  intro x hx
  obtain hnil | ⟨proc, code, hcurrent, hone⟩ | ⟨y, linked, hone, -, hlisteners⟩ :=
    moves_exit_cases hm
  · simp [hnil] at hx
  · rw [hone, List.mem_singleton] at hx
    subst hx
    rintro (hmem | ⟨q, parent, -, hparent, hlistener, hw⟩)
    · obtain ⟨b', hb', hactive', -⟩ := hv.kin.listener _ proc hcurrent w hmem
      rw [← Option.some.inj (hb.symm.trans hb'), hactive] at hactive'
      cases hactive'
    · exact hw (h.listener hv hparent hlistener).2.symm
  · rw [hone, List.mem_singleton] at hx
    subst hx
    exact aborted_untold hv hlisteners

theorem isBlocking_sleeps {listener : Nat} (h : Sleeps k.view c w listener)
    (hb : k.waitblock w = some b) : isBlocking k c = some b.active := by
  obtain ⟨bare, hbare, hblock, -⟩ := h.block
  obtain ⟨proc, hproc, rfl⟩ := exists_bareOf hbare
  have hblock : proc.block = w := hblock
  simp only [isBlocking, hproc, Option.bind_eq_bind, Option.bind_some, hblock, if_neg h.nonnull, hb]

/-- When a sleeping process is chosen, it has the answer of its block. -/
theorem step_chosen {listener : Nat} (hv : Valid k.view) (hstep : ForkStep virtualToPhysical k a t)
    (h : Sleeps k.view c w listener) (hcur : t.currentProcess = c) :
    ∃ b chosen, k.waitblock w = some b ∧ b.active = false ∧ t.process c = some chosen ∧
      chosen.registers.r 0 = b.terminatedPid ∧
      t.stores = k.stores ++ if b.statusLoc = 0 then [] else
        [⟨chosen.addrspace.table, b.statusLoc, b.exitCode⟩] := by
  have hm := step_moves hv hstep
  obtain ⟨proc, b, hproc, hblock, hb, hactive, ⟨registers, rfl⟩, hstores⟩ :=
    moves_chosen hv hm h hcur
  have hproc' : k.view.process t.currentProcess = some proc := hcur ▸ hproc
  obtain ⟨chosen, hchosen, hr⟩ := step_returned hv hstep proc hproc' (hblock ▸ h.nonnull) b
    (hblock ▸ hb)
  rw [hcur] at hchosen
  obtain ⟨new, hnew, hkeeps⟩ := moves_keeps hm hproc (by simp [exitsOf])
  have hbare : t.view.process c = some chosen.bare := bareOf_some hchosen
  have htable : chosen.addrspace = proc.addrspace := by
    rw [← hkeeps.addrspace, Option.some.inj (hnew.symm.trans hbare)]
    rfl
  exact ⟨b, chosen, hb, hactive, hchosen, hr, htable ▸ hstores⟩

/-! ## Waiting for one process -/

/-- The first termination of the process at this address. -/
def firstExit (q : Nat) (exits : List Exit) : Option Exit := exits.find? (·.process = q)

/-- A process that is there exits by itself: nothing else frees it. -/
theorem moves_firstExit {x : Exit} {target : Process} (hm : Moves s a s')
    (htarget : s.process q = some target) (hx : firstExit q (exitsOf s a) = some x) :
    ∃ code, x = ⟨q, target.pid, code, target.terminationListeners.elements⟩ := by
  have hmem : x ∈ exitsOf s a := List.mem_of_find?_eq_some hx
  have hxq : x.process = q := by simpa using List.find?_some hx
  obtain hnil | ⟨proc, code, hcurrent, hone⟩ | ⟨y, linked, hone, hfree, -⟩ := moves_exit_cases hm
  · simp [hnil] at hmem
  · rw [hone, List.mem_singleton] at hmem
    subst hmem
    have hq : s.currentProcess = q := hxq
    rw [hq] at hcurrent
    obtain rfl := Option.some.inj (hcurrent.symm.trans htarget)
    exact ⟨code, by rw [hq]⟩
  · rw [hone, List.mem_singleton] at hmem
    subst hmem
    rw [hxq, htarget] at hfree
    cases hfree

/-- The process `c` waits in the block `w` for the process `q`, or has its answer there. -/
structure WaitsFor (s : View) (exits : List Exit) (c w q pid statusLoc : Nat) : Prop where
  sleeps : Sleeps s c w 0
  pending : firstExit q exits = none → ∃ b, s.waitblock w = some b ∧ b.statusLoc = statusLoc ∧
    b.active = true ∧ ∃ target, s.process q = some target ∧ target.pid = pid ∧
      .waitblock w ∈ target.terminationListeners.elements
  answered : ∀ x, firstExit q exits = some x → ∃ b, s.waitblock w = some b ∧
    b.statusLoc = statusLoc ∧ b.active = false ∧ b.terminatedPid = pid ∧ b.exitCode = x.code

theorem firstExit_append (exits more : List Exit) :
    firstExit q (exits ++ more) = (firstExit q exits).or (firstExit q more) :=
  List.find?_append

theorem moves_waitsFor {exits : List Exit} {pid statusLoc : Nat} (hv : Valid s)
    (hm : Moves s a s') (h : WaitsFor s exits c w q pid statusLoc) (hcur : s'.currentProcess ≠ c) :
    WaitsFor s' (exits ++ exitsOf s a) c w q pid statusLoc := by
  obtain ⟨htold, huntold⟩ := moves_block hv hm h.sleeps hcur
  refine ⟨moves_sleeps hv hm h.sleeps hcur, fun hnone => ?_, fun x hx => ?_⟩
  · rw [firstExit_append, Option.or_eq_none_iff] at hnone
    obtain ⟨b, hb, hloc, hactive, target, htarget, hpid, hlisten⟩ := h.pending hnone.1
    have hnot : ∀ x ∈ exitsOf s a, x.process ≠ q := by
      simpa [firstExit] using hnone.2
    obtain ⟨new, hnew, hkeeps⟩ := moves_keeps hm htarget hnot
    refine ⟨b, ?_, hloc, hactive, new, hnew, hkeeps.pid.trans hpid, hkeeps.listeners _ hlisten⟩
    rw [huntold, hb]
    intro x hx
    obtain hnil | ⟨proc, code, hcurrent, hone⟩ | ⟨y, linked, hone, -, hlisteners⟩ :=
      moves_exit_cases hm
    · simp [hnil] at hx
    · have hq := hnot x hx
      rw [hone, List.mem_singleton] at hx
      subst hx
      exact hv.kin.untold hcurrent htarget (Ne.symm hq) hlisten
    · rw [hone, List.mem_singleton] at hx
      subst hx
      exact aborted_untold hv hlisteners
  · rw [firstExit_append] at hx
    cases hfirst : firstExit q exits with
    | some y =>
      rw [hfirst, Option.some_or] at hx
      obtain ⟨b, hb, hloc, hactive, hpid, hcode⟩ := h.answered y hfirst
      refine ⟨b, ?_, hloc, hactive, hpid, Option.some.inj hx ▸ hcode⟩
      rw [huntold (h.sleeps.untold hv hm hb hactive), hb]
    | none =>
      rw [hfirst, Option.none_or] at hx
      obtain ⟨b, hb, hloc, hactive, target, htarget, hpid, hlisten⟩ := h.pending hfirst
      obtain ⟨code, rfl⟩ := moves_firstExit hm htarget hx
      refine ⟨b.told ⟨q, target.pid, code, target.terminationListeners.elements⟩, ?_, hloc, rfl,
        hpid, rfl⟩
      rw [htold _ (List.mem_of_find?_eq_some hx) (.inl hlisten), hb]
      rfl

/-- The process `c` has a block that was never active, and is answered `-1`. -/
structure Refused (s : View) (c w : Nat) : Prop where
  sleeps : Sleeps s c w 0
  block : ∃ b, s.waitblock w = some b ∧ b.active = false ∧ b.terminatedPid = 0xffffffff

theorem moves_refused (hv : Valid s) (hm : Moves s a s') (h : Refused s c w)
    (hcur : s'.currentProcess ≠ c) : Refused s' c w := by
  obtain ⟨b, hb, hactive, hpid⟩ := h.block
  refine ⟨moves_sleeps hv hm h.sleeps hcur, b, ?_, hactive, hpid⟩
  rw [(moves_block hv hm h.sleeps hcur).2 (h.sleeps.untold hv hm hb hactive), hb]

/-! ## Runs of events -/

/-- Without forks, nothing listens for children. -/
structure Childless (s : View) : Prop where
  listeners : ∀ p proc, s.process p = some proc →
    ∀ q, .process q ∉ proc.terminationListeners.elements
  children : ∀ p proc, s.process p = some proc → proc.children.length = 0

theorem moves_childless {e : Event} (h : Childless s) (hm : Moves s (.event e) s') :
    Childless s' := by
  have hsame : (∀ p new, s'.process p = some new → (new.terminationListeners = .empty ∧
      new.children = .empty) ∨ ∃ old, s.process p = some old ∧
        (∀ q, .process q ∈ new.terminationListeners.elements →
          .process q ∈ old.terminationListeners.elements) ∧
        new.children.length = old.children.length) → Childless s' := by
    intro hold
    refine ⟨fun p new hnew q hq => ?_, fun p new hnew => ?_⟩
    · obtain ⟨hnone, -⟩ | ⟨old, hold, hls, -⟩ := hold p new hnew
      · simp [hnone, Kqueue.empty] at hq
      · exact h.listeners p old hold q (hls q hq)
    · obtain ⟨-, hnone⟩ | ⟨old, hold, -, hlen⟩ := hold p new hnew
      · rw [hnone]
        rfl
      · exact hlen.trans (h.children p old hold)
  cases hm with
  | schedule hc =>
    refine hsame fun p new hnew => ?_
    obtain ⟨-, rfl⟩ | ⟨-, hold⟩ := update_cases hnew
    · exact .inl ⟨hc.constructed.2.2.1, hc.constructed.2.1⟩
    · exact .inr ⟨new, hold, fun _ hq => hq, rfl⟩
  | halt => exact ⟨h.listeners, h.children⟩
  | putBack => exact ⟨h.listeners, h.children⟩
  | run => exact ⟨h.listeners, h.children⟩
  | release _ hnext =>
    refine hsame fun p new hnew => .inr ?_
    obtain ⟨rfl, rfl⟩ | ⟨-, hold⟩ := update_cases hnew
    · exact ⟨_, hnext, fun _ hq => hq, rfl⟩
    · exact ⟨new, hold, fun _ hq => hq, rfl⟩
  | exit _ _ ht =>
    refine hsame fun p new hnew => .inr ?_
    obtain ⟨-, old, hold, rfl⟩ := ht.process hnew
    refine ⟨old, hold, ?_, ?_⟩
    · split_ifs <;> exact fun _ hq => hq
    · split_ifs <;> rfl
  | @wait _ _ _ _ _ proc _ _ _ _ _ _ _ hcurrent _ _ _ _ hP =>
    refine hsame fun p new hnew => .inr ?_
    by_cases hp : p = s.currentProcess
    · subst hp
      obtain rfl := Option.some.inj (hP.self.symm.trans hnew)
      exact ⟨proc, hcurrent, fun _ hq => hq, rfl⟩
    · obtain ⟨old, hold, rfl⟩ := Option.map_eq_some_iff.mp ((hP.other p hp).symm.trans hnew)
      refine ⟨old, hold, ?_, ?_⟩
      · split_ifs
        · exact fun q hq => (List.mem_cons.mp hq).resolve_left (by simp)
        · exact fun _ hq => hq
      · split_ifs <;> rfl

/-- An event, with its history. -/
def EventStep (virtualToPhysical : Nat → Nat) (s : History) (e : Event) (t : History) : Prop :=
  Step virtualToPhysical s.kernel e t.kernel ∧
    t.live = liveAfter s.kernel s.live (.event e) ∧
    t.exits = s.exits ++ exitsOf s.kernel.view (.event e)

/-- An event after which `c` is not the current process. -/
def Sleeping (virtualToPhysical : Nat → Nat) (c : Nat) (s : History) (e : Event) (t : History) :
    Prop := EventStep virtualToPhysical s e t ∧ t.kernel.currentProcess ≠ c

/-- An event is an action. -/
theorem event_step {s t : History} {e : Event} (hc : Childless s.kernel.view)
    (hstep : EventStep virtualToPhysical s e t) :
    HistoryStep virtualToPhysical s (.event e) t := by
  obtain ⟨⟨hhalted, he, hperform⟩, hlive, hexits⟩ := hstep
  refine ⟨⟨hhalted, ⟨he, fun p proc _ q _ other hother hmem => ?_⟩, hperform⟩, hlive, hexits⟩
  exact hc.listeners q other.bare (bareOf_some hother) p hmem

theorem event_moves {s t : History} {e : Event} (hv : Valid s.kernel.view)
    (hc : Childless s.kernel.view) (hstep : EventStep virtualToPhysical s e t) :
    Moves s.kernel.view (.event e) t.kernel.view ∧ Valid t.kernel.view ∧
      Childless t.kernel.view := by
  have hm := step_moves hv (event_step hc hstep).1
  exact ⟨hm, moves_valid hv hm, moves_childless hc hm⟩

theorem events_childless {mmu : Mmu} {events : List Event} {s : History}
    (hrun : Run (EventStep virtualToPhysical) (History.start (initial mmu)) events s) :
    Valid s.kernel.view ∧ Childless s.kernel.view := by
  refine hrun.invariant (I := fun s => Valid s.kernel.view ∧ Childless s.kernel.view)
    ⟨valid_initial mmu, ?_, ?_⟩ fun s e t h hstep => (event_moves h.1 h.2 hstep).2
  · simp [History.start, initial, Kernel.view, bareOf]
  · simp [History.start, initial, Kernel.view, bareOf]

/-- What holds when a process has gone to sleep and survives every move that does not choose it,
holds for as long as it sleeps. -/
theorem sleeping_invariant {I : View → List Exit → Prop} {events : List Event} {s t : History}
    (hv : Valid s.kernel.view) (hc : Childless s.kernel.view)
    (hrun : Run (Sleeping virtualToPhysical c) s events t) (start : I s.kernel.view s.exits)
    (keep : ∀ s a s' exits, Valid s → Moves s a s' → I s exits → s'.currentProcess ≠ c →
      I s' (exits ++ exitsOf s a)) :
    Valid t.kernel.view ∧ Childless t.kernel.view ∧ I t.kernel.view t.exits := by
  refine hrun.invariant (I := fun t => Valid t.kernel.view ∧ Childless t.kernel.view ∧
    I t.kernel.view t.exits) ⟨hv, hc, start⟩ ?_
  rintro t e u ⟨hv, hc, hI⟩ ⟨hstep, hcur⟩
  obtain ⟨hm, hv', hc'⟩ := event_moves hv hc hstep
  refine ⟨hv', hc', ?_⟩
  rw [hstep.2.2]
  exact keep _ _ _ _ hv hm hI hcur

/-! ## What a wait answers -/

/-- The PID names this process of the queue, and no other. -/
structure Names (k : Kernel) (pid q : Nat) : Prop where
  queued : q ∈ k.processQueue.elements
  named : ∃ proc, k.process q = some proc ∧ proc.pid = pid
  only : ∀ r ∈ k.processQueue.elements, ∀ other, k.process r = some other → other.pid = pid → r = q

/-- The block after the call: it waits for the process that the PID names, or refuses. -/
theorem wait_sleeps {pid statusLoc : Nat} {registers : Registers} {memory : Waitblock} {s' : View}
    (hv : Valid k.view) (hc : Childless k.view)
    (hm : Moves k.view (.event (.wait registers pid statusLoc w memory)) s') :
    (∀ q, Names k pid q → pid ≠ 0 → pid ≠ 0xffffffff →
      WaitsFor s' [] k.currentProcess w q pid statusLoc) ∧
    (UnusedPid k pid → Refused s' k.currentProcess w) := by
  cases hm with
  | @wait _ _ _ _ _ proc b target watch process h0 hw hnone hcurrent hpid hloc hcaller ha hP =>
    have hsleeps : watch = false → Sleeps { k.view with
        process := process
        waitblock := Function.update k.view.waitblock w (some b)
        queue := k.view.queue ++ [k.currentProcess]
        currentProcess := 0
        registerBlock := 0 } k.currentProcess w 0 := by
      rintro rfl
      have hlistener := hv.kin.unlistened hcurrent (hv.running proc hcurrent)
      exact ⟨List.mem_append_right _ (List.mem_singleton_self _), ⟨_, hP.self, rfl, hlistener⟩, hw⟩
    constructor
    · intro q hnames hpid0 hpidm
      have hany : ¬ b.AnyChild := by
        rintro (he | he)
        · exact hpidm (hpid.symm.trans he)
        · exact hpid0 (hpid.symm.trans he)
      obtain ⟨named, hnamed, hnamedpid⟩ := hnames.named
      cases ha with
      | children hany' => exact absurd hany' hany
      | nothing _ hno =>
        exact absurd (hnamedpid.trans hpid.symm)
          (hno hany q hnames.queued named.bare (bareOf_some hnamed))
      | @process r other _ hr hother hrpid hactive =>
        obtain ⟨actual, hactual, rfl⟩ := exists_bareOf hother
        obtain rfl := hnames.only r hr actual hactual (hrpid.trans hpid)
        have hrc : r ≠ k.currentProcess := by
          rintro rfl
          exact hv.notQueued hr
        refine ⟨hsleeps rfl, fun _ => ⟨b, Function.update_self .., hloc, hactive, ?_⟩, ?_⟩
        · have hnew := hP.other r hrc
          rw [hother, Option.map_some, if_pos rfl] at hnew
          exact ⟨_, hnew, hrpid.trans hpid, List.mem_cons_self⟩
        · intro x hx
          cases hx
    · intro hunused
      cases ha with
      | children _ hcaller' hlen _ => exact absurd (hc.children _ _ hcaller') hlen
      | process _ hr hother hrpid _ =>
        exact absurd (hrpid.trans hpid) (unused_of hunused _ hr _ hother)
      | nothing _ _ hactive hterminated =>
        exact ⟨hsleeps rfl, b, Function.update_self .., hactive, hterminated⟩

/-- A process that waits for another one is blocked until that one has exited, and then gets its
PID, and its exit code is stored if it has asked for it; one that names no process of the queue is
not blocked and gets `-1`. -/
theorem run_answered {mmu : Mmu} {events more : List Event} {before after t : History}
    {registers : Registers} {pid statusLoc : Nat} {memory : Waitblock}
    (hrun : Run (EventStep virtualToPhysical) (History.start (initial mmu)) events before)
    (hwait : EventStep virtualToPhysical before (.wait registers pid statusLoc w memory) after)
    (hrest : Run (Sleeping virtualToPhysical before.kernel.currentProcess)
      { after with exits := [] } more t) :
    (∀ q, Names before.kernel pid q → pid ≠ 0 → pid ≠ 0xffffffff →
      before.kernel.currentProcess ∈ t.kernel.processQueue.elements ∧
      isBlocking t.kernel before.kernel.currentProcess = some (firstExit q t.exits).isNone ∧
      ∀ e u, EventStep virtualToPhysical t e u →
        u.kernel.currentProcess = before.kernel.currentProcess →
        ∃ x chosen, firstExit q t.exits = some x ∧
          u.kernel.process before.kernel.currentProcess = some chosen ∧
          chosen.registers.r 0 = pid ∧
          u.kernel.stores = t.kernel.stores ++ if statusLoc = 0 then [] else
            [⟨chosen.addrspace.table, statusLoc, x.code⟩]) ∧
    (UnusedPid before.kernel pid →
      before.kernel.currentProcess ∈ t.kernel.processQueue.elements ∧
      isBlocking t.kernel before.kernel.currentProcess = some false ∧
      ∀ e u, EventStep virtualToPhysical t e u →
        u.kernel.currentProcess = before.kernel.currentProcess →
        ∃ chosen, u.kernel.process before.kernel.currentProcess = some chosen ∧
          chosen.registers.r 0 = 0xffffffff) := by
  obtain ⟨hv, hc⟩ := events_childless hrun
  obtain ⟨hm, hv', hc'⟩ := event_moves hv hc hwait
  obtain ⟨hfor, hrefused⟩ := wait_sleeps hv hc hm
  constructor
  · intro q hnames hpid0 hpidm
    obtain ⟨hvt, hct, hwaits⟩ := sleeping_invariant (s := { after with exits := [] })
      (I := fun s exits => WaitsFor s exits before.kernel.currentProcess w q pid statusLoc)
      hv' hc' hrest (hfor q hnames hpid0 hpidm) fun _ _ _ _ => moves_waitsFor
    refine ⟨hwaits.sleeps.queued, ?_, fun e u hstep hcur => ?_⟩
    · cases hfirst : firstExit q t.exits with
      | none =>
        obtain ⟨b, hb, -, hactive, -⟩ := hwaits.pending hfirst
        rw [isBlocking_sleeps hwaits.sleeps hb, hactive]
        rfl
      | some x =>
        obtain ⟨b, hb, -, hactive, -⟩ := hwaits.answered x hfirst
        rw [isBlocking_sleeps hwaits.sleeps hb, hactive]
        rfl
    · obtain ⟨b, chosen, hb, hactive, hchosen, hr, hstores⟩ :=
        step_chosen hvt (event_step hct hstep).1 hwaits.sleeps hcur
      cases hfirst : firstExit q t.exits with
      | none =>
        obtain ⟨b', hb', -, hactive', -⟩ := hwaits.pending hfirst
        rw [← Option.some.inj (hb.symm.trans hb'), hactive] at hactive'
        cases hactive'
      | some x =>
        obtain ⟨b', hb', hloc, -, hpid, hcode⟩ := hwaits.answered x hfirst
        obtain rfl := Option.some.inj (hb.symm.trans hb')
        refine ⟨x, chosen, rfl, hchosen, hr.trans hpid, ?_⟩
        rw [hstores, hloc, hcode]
  · intro hunused
    obtain ⟨hvt, hct, hrefuses⟩ := sleeping_invariant (s := { after with exits := [] })
      (I := fun s _ => Refused s before.kernel.currentProcess w) hv' hc' hrest
      (hrefused hunused) fun _ _ _ _ => moves_refused
    obtain ⟨b, hb, hactive, hpid⟩ := hrefuses.block
    refine ⟨hrefuses.sleeps.queued, ?_, fun e u hstep hcur => ?_⟩
    · rw [isBlocking_sleeps hrefuses.sleeps hb, hactive]
    · obtain ⟨b', chosen, hb', -, hchosen, hr, -⟩ :=
        step_chosen hvt (event_step hct hstep).1 hrefuses.sleeps hcur
      refine ⟨chosen, hchosen, hr.trans ?_⟩
      rwa [← Option.some.inj (hb.symm.trans hb')]

/-! ## Process 1 waits for process 2 -/

/-- The step of an event with its history, if it is enabled. -/
def eventStep (s : History) (e : Event) : Option History :=
  if s.kernel.halted = false ∧ e.Enabled s.kernel then
    (perform id s.kernel e).map fun k =>
      ⟨k, liveAfter s.kernel s.live (.event e), s.exits ++ exitsOf s.kernel.view (.event e)⟩
  else none

theorem eventStep_step {s t : History} {e : Event} (h : eventStep s e = some t) :
    EventStep id s e t := by
  unfold eventStep at h
  split_ifs at h with hcond
  obtain ⟨k, hk, rfl⟩ := Option.map_eq_some_iff.mp h
  exact ⟨⟨hcond.1, hcond.2, hk⟩, rfl, rfl⟩

/-- The same, if `c` is not chosen. -/
def sleepingStep (c : Nat) (s : History) (e : Event) : Option History :=
  (eventStep s e).filter fun t => decide (t.kernel.currentProcess ≠ c)

theorem sleepingStep_step {s t : History} {e : Event} (h : sleepingStep c s e = some t) :
    Sleeping id c s e t := by
  obtain ⟨hstep, hcur⟩ := Option.filter_eq_some_iff.mp h
  exact ⟨eventStep_step hstep, of_decide_eq_true hcur⟩

/-- A user process with its own table. -/
def newUser (pid table : Nat) : Process :=
  { newThread pid with registers := ⟨fun _ => 0, 0x30, 0x1004⟩, addrspace := ⟨table, pid⟩ }

def pair : List Event :=
  [.schedule 0x1000 (newUser 1 0x8000), .schedule 0x2000 (newUser 2 0xa000),
    .interrupt interrupted]

/-- Both processes are scheduled and process 1 runs. -/
def pairRuns : History :=
  (pair.foldlM eventStep (History.start (initial bootMmu))).get (by decide +kernel)

/-- Process 1 waits for process 2, and wants its exit code at `0x5000`. -/
def pairWaits : History := (eventStep pairRuns
  (.wait interrupted 2 0x5000 0x3000 ⟨0, 0, 0, 0, 0, false⟩)).get (by decide +kernel)

/-- Process 2 runs and exits with 7. -/
def pairExits : History := ([.interrupt interrupted, .exit interrupted 7].foldlM
  (sleepingStep 0x1000) { pairWaits with exits := [] }).get (by decide +kernel)

theorem pairRuns_run : Run (EventStep id) (History.start (initial bootMmu)) pair pairRuns :=
  Run.of_foldlM (fun _ _ _ => eventStep_step) (Option.some_get _).symm

theorem pairExits_run : Run (Sleeping id 0x1000) { pairWaits with exits := [] }
    [.interrupt interrupted, .exit interrupted 7] pairExits :=
  Run.of_foldlM (fun _ _ _ => sleepingStep_step) (Option.some_get _).symm

end WagtailScheduler
