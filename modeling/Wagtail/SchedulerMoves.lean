import Wagtail.SchedulerView

/-!
# Moves of the scheduler

The cases of a step as a relation on views, the invariant that every move keeps,
and the theorem that connects the two: a step of a kernel that satisfies the
invariant is a move, and an enabled action happens unless a process exits whose
parent is gone.
-/
namespace WagtailScheduler

open WagtailKqueue
open WagtailMmu
open Runs (Run)

variable {virtualToPhysical : Nat → Nat} {k k₁ t : Kernel} {s s' : View} {p q w c : Nat}
  {proc : Process} {b : Waitblock} {a : Action}

/-! ## The cases of a step -/

/-- The processes after a fork. -/
def forked (P : Nat → Option Process) (parent child : Nat) (father proc : Process)
    (linked : Bool) : Nat → Option Process :=
  if linked then
    Function.update
      (Function.update P child (some (proc.addTerminationListener (.process parent))))
      parent (some { father with children := father.children.pushFront child })
  else Function.update P child (some proc)

/-- A new process can be made at this address. -/
structure Creates (s : View) (p : Nat) (proc : Process) : Prop where
  nonnull : p ≠ 0
  free : s.process p = none
  constructed : proc.Constructed
  unheard : ∀ q other, s.process q = some other →
    .process p ∉ other.terminationListeners.elements

inductive Moves (s : View) : Action → View → Prop where
  | schedule {p : Nat} {proc : Process} : Creates s p proc.bare →
      Moves s (.event (.schedule p proc)) { s with
        process := Function.update s.process p (some proc.bare)
        queue := s.queue ++ [p] }
  | halt {registers : Registers} : s.candidates = [] →
      Moves s (.event (.interrupt registers)) { s with halted := true }
  | putBack {registers : Registers} {next : Nat} {rest : List Nat} {proc : Process}
      {b : Waitblock} : s.candidates = next :: rest → s.process next = some proc →
      proc.block ≠ 0 → s.waitblock proc.block = some b → b.active = true →
      Moves s (.event (.interrupt registers)) { s with
        queue := rest ++ [next]
        currentProcess := 0
        table := proc.addrspace.table }
  | run {registers : Registers} {next : Nat} {rest : List Nat} {proc : Process} :
      s.candidates = next :: rest → s.process next = some proc → proc.block = 0 →
      Moves s (.event (.interrupt registers)) { s with
        queue := rest
        currentProcess := next
        registerBlock := next
        table := proc.addrspace.table }
  | release {registers : Registers} {next : Nat} {rest : List Nat} {proc : Process}
      {b : Waitblock} : s.candidates = next :: rest → s.process next = some proc →
      proc.block ≠ 0 → s.waitblock proc.block = some b → b.active = false →
      Moves s (.event (.interrupt registers)) { s with
        process := Function.update s.process next
          (some { proc with block := 0, childTerminationListener := 0 })
        waitblock := Function.update s.waitblock proc.block none
        queue := rest
        currentProcess := next
        registerBlock := next
        table := proc.addrspace.table
        stores := s.stores ++ if b.statusLoc = 0 then [] else
          [⟨proc.addrspace.table, b.statusLoc, b.exitCode⟩] }
  | exit {registers : Registers} {retval : Nat} {proc : Process}
      {process : Nat → Option Process} {waitblock : Nat → Option Waitblock} :
      s.process s.currentProcess = some proc →
      (∀ q, .process q ∈ proc.terminationListeners.elements → s.process q ≠ none) →
      Terminated s.process process s.waitblock waitblock s.currentProcess
        { proc with exitCode := retval } proc.terminationListeners.elements →
      Moves s (.event (.exit registers retval)) { s with
        process := process
        waitblock := waitblock
        currentProcess := 0
        registerBlock := 0 }
  | wait {registers : Registers} {pid statusLoc w : Nat} {memory : Waitblock} {proc : Process}
      {b : Waitblock} {target : Option Nat} {watch : Bool} {process : Nat → Option Process} :
      s.currentProcess ≠ 0 → w ≠ 0 → s.waitblock w = none →
      s.process s.currentProcess = some proc → b.waitpid = pid → b.statusLoc = statusLoc →
      b.caller = s.currentProcess → Awaits s b target watch →
      Waits s.process process s.currentProcess w proc target watch →
      Moves s (.event (.wait registers pid statusLoc w memory)) { s with
        process := process
        waitblock := Function.update s.waitblock w (some b)
        queue := s.queue ++ [s.currentProcess]
        currentProcess := 0
        registerBlock := 0 }
  | fork {registers : Registers} {child table : Nat} {proc father : Process} {linked : Bool} :
      s.process s.currentProcess = some father → Creates s child proc.bare →
      (∀ q ∈ s.queue, ∀ other, s.process q = some other → other.pid ≠ proc.pid) →
      Moves s (.fork registers child proc linked true table) { s with
        process := forked s.process s.currentProcess child father proc.bare linked
        queue := s.queue ++ [child]
        table := table }
  | abort {registers : Registers} {child table : Nat} {proc father record : Process}
      {linked : Bool} {process : Nat → Option Process} {waitblock : Nat → Option Waitblock} :
      s.process s.currentProcess = some father → Creates s child proc.bare →
      (∀ q ∈ s.queue, ∀ other, s.process q = some other → other.pid ≠ proc.pid) →
      Terminated (forked s.process s.currentProcess child father proc.bare linked) process
        s.waitblock waitblock child record
        (if linked then [.process s.currentProcess] else []) →
      Moves s (.fork registers child proc linked false table) { s with
        process := process
        waitblock := waitblock
        table := table }

/-! ## The invariant -/

/-- The pointers fit together, and the live processes are the current one and the queue, each
once. -/
structure Valid (s : View) : Prop where
  kin : Kin s.process s.waitblock
  live : ∀ p, p ∈ s.candidates ↔ s.process p ≠ none
  nodup : s.candidates.Nodup
  running : ∀ proc, s.process s.currentProcess = some proc → proc.block = 0
  registerBlock : s.registerBlock ≠ 0 → s.process s.registerBlock ≠ none

theorem mem_candidates : p ∈ s.candidates ↔ p ∈ s.queue ∨ s.currentProcess ≠ 0 ∧
    p = s.currentProcess := by
  unfold View.candidates
  by_cases h0 : s.currentProcess = 0 <;> simp [h0]

theorem Valid.queued (h : Valid s) (hp : p ∈ s.queue) : s.process p ≠ none :=
  (h.live p).mp (mem_candidates.mpr (.inl hp))

theorem Valid.current (h : Valid s) (h0 : s.currentProcess ≠ 0) :
    ∃ proc, s.process s.currentProcess = some proc :=
  Option.ne_none_iff_exists'.mp ((h.live _).mp (mem_candidates.mpr (.inr ⟨h0, rfl⟩)))

theorem Valid.current_ne_zero (h : Valid s) (hp : s.process s.currentProcess = some proc) :
    s.currentProcess ≠ 0 := h.kin.ne_zero hp

theorem Valid.notQueued (h : Valid s) : s.currentProcess ∉ s.queue := by
  intro hmem
  by_cases h0 : s.currentProcess = 0
  · rw [h0] at hmem
    exact h.queued hmem h.kin.null
  · have hnodup := h.nodup
    rw [View.candidates, if_neg h0] at hnodup
    exact (List.nodup_append.mp hnodup).2.2 _ hmem _ (by simp) rfl

theorem valid_initial (mmu : Mmu) : Valid (initial mmu).view := by
  refine ⟨kin_empty, fun p => ?_, ?_, ?_, ?_⟩ <;>
    simp [initial, Kernel.view, View.candidates, bareOf, Kqueue.empty]

/-- A process that is not there before is added behind the queue. -/
theorem Valid.append (h : Valid s) {process : Nat → Option Process} {table : Nat}
    (hkin : Kin process s.waitblock) (hfree : s.process p = none)
    (hlive : ∀ q, process q ≠ none ↔ q = p ∨ s.process q ≠ none)
    (hrunning : ∀ proc, process s.currentProcess = some proc → s.currentProcess ≠ 0 →
      proc.block = 0) :
    Valid { s with process := process, queue := s.queue ++ [p], table := table } := by
  have hnew : p ∉ s.candidates := fun hmem => (h.live p).mp hmem hfree
  have hperm : (s.candidates ++ [p]).Perm
      ({ s with process := process, queue := s.queue ++ [p], table := table } : View).candidates := by
    unfold View.candidates
    simp only [List.append_assoc]
    exact List.Perm.append_left _ (List.perm_append_comm)
  refine ⟨hkin, fun q => ?_, ?_, fun proc hproc => ?_, fun h0 => ?_⟩
  · rw [hlive q, ← h.live q, ← hperm.mem_iff, List.mem_append, List.mem_singleton, or_comm]
  · refine hperm.nodup_iff.mp (List.nodup_append.mpr ⟨h.nodup, by simp, ?_⟩)
    intro q hq r hr hqr
    rw [List.mem_singleton.mp hr] at hqr
    exact hnew (hqr ▸ hq)
  · exact hrunning proc hproc (hkin.ne_zero hproc)
  · exact (hlive _).mpr (.inr (h.registerBlock h0))

theorem Creates.kin (h : Valid s) (hc : Creates s p proc) :
    Kin (Function.update s.process p (some proc)) s.waitblock :=
  h.kin.add hc.nonnull hc.free hc.constructed hc.unheard

theorem Creates.ne_current (hc : Creates s p proc) {father : Process}
    (hcur : s.process s.currentProcess = some father) : p ≠ s.currentProcess := by
  rintro rfl
  rw [hc.free] at hcur
  cases hcur

theorem forked_kin (h : Valid s) (hc : Creates s p proc) {father : Process} (linked : Bool)
    (hcur : s.process s.currentProcess = some father)
    (hpid : ∀ q ∈ s.queue, ∀ other, s.process q = some other → other.pid ≠ proc.pid) :
    Kin (forked s.process s.currentProcess p father proc linked) s.waitblock := by
  cases linked with
  | false => exact hc.kin h
  | true =>
    have hne := hc.ne_current hcur
    have hadopt := (hc.kin h).adopt father hne (Function.update_self ..)
      ((Function.update_of_ne hne.symm ..).trans hcur) (by rw [hc.constructed.2.2.1]; rfl) ?_
    · rwa [Function.update_idem] at hadopt
    · intro q hq other hother
      obtain ⟨hqc, child, hchild, -⟩ := h.kin.child _ father hcur q hq
      obtain ⟨rfl, -⟩ | ⟨-, hother⟩ := update_cases hother
      · rw [hc.free] at hchild
        cases hchild
      · obtain hqueue | ⟨-, he⟩ := mem_candidates.mp ((h.live q).mpr (by simp [hchild]))
        · exact hpid q hqueue other hother
        · exact absurd he hqc

theorem forked_live (hc : Creates s p proc) {father : Process} (linked : Bool)
    (hcur : s.process s.currentProcess = some father) (q : Nat) :
    forked s.process s.currentProcess p father proc linked q ≠ none ↔
      q = p ∨ s.process q ≠ none := by
  have hne := hc.ne_current hcur
  unfold forked
  by_cases hqp : q = p
  · subst hqp
    cases linked <;> simp [Function.update_of_ne hne]
  · by_cases hqc : q = s.currentProcess
    · subst hqc
      cases linked <;> simp [Function.update_of_ne hne.symm, hcur]
    · cases linked <;> simp [hqp, hqc]

theorem forked_current (hc : Creates s p proc) {father proc' : Process} {linked : Bool}
    (hcur : s.process s.currentProcess = some father)
    (h : forked s.process s.currentProcess p father proc linked s.currentProcess = some proc') :
    proc'.block = father.block := by
  have hne := hc.ne_current hcur
  unfold forked at h
  cases linked with
  | false =>
    simp only [Bool.false_eq_true, if_false, Function.update_of_ne hne.symm, hcur] at h
    rw [← Option.some.inj h]
  | true =>
    simp only [if_true, Function.update_self] at h
    rw [← Option.some.inj h]

theorem Terminated.live {P P' : Nat → Option Process} {B B' : Nat → Option Waitblock}
    {record : Process} {listeners : List Listener} (h : Terminated P P' B B' c record listeners)
    (q : Nat) : P' q ≠ none ↔ q ≠ c ∧ P q ≠ none := by
  by_cases hqc : q = c
  · subst hqc
    simp [h.gone]
  · by_cases hmem : .process q ∈ listeners
    · simp [h.parent q hqc hmem, hqc]
    · simp [h.other q hqc hmem, hqc]

theorem Waits.live {P P' : Nat → Option Process} {target : Option Nat} {watch : Bool}
    (h : Waits P P' c w proc target watch) (hc : P c = some proc) (q : Nat) :
    P' q ≠ none ↔ P q ≠ none := by
  by_cases hqc : q = c
  · subst hqc
    simp [h.self, hc]
  · simp [h.other q hqc]

/-- A child that is not usable leaves nothing behind. -/
theorem aborted_live {father record : Process} {linked : Bool}
    {process : Nat → Option Process} {waitblock : Nat → Option Waitblock}
    {listeners : List Listener} (hcur : s.process s.currentProcess = some father)
    (hc : Creates s c proc) (ht : Terminated
      (forked s.process s.currentProcess c father proc linked) process s.waitblock waitblock c
      record listeners) (q : Nat) : process q ≠ none ↔ s.process q ≠ none := by
  rw [ht.live q, forked_live hc _ hcur q]
  constructor
  · rintro ⟨hne, he | hq⟩
    · exact absurd he hne
    · exact hq
  · intro hq
    exact ⟨fun he => hq (he ▸ hc.free), .inr hq⟩

theorem candidates_idle {queue : List Nat} (h : s.currentProcess = 0) (hq : s.queue = queue) :
    s.candidates = queue := by
  simp [View.candidates, h, hq]

theorem candidates_busy (h : s.currentProcess ≠ 0) :
    s.candidates = s.queue ++ [s.currentProcess] := by
  simp [View.candidates, h]

/-- The interrupt has chosen the front of the candidates. -/
theorem Valid.chosen {next : Nat} {rest : List Nat} (h : Valid s)
    (hc : s.candidates = next :: rest) (hkin : Kin s'.process s'.waitblock)
    (hlive : ∀ q, s'.process q ≠ none ↔ s.process q ≠ none)
    (hcandidates : s'.candidates = rest ++ [next])
    (hrunning : ∀ proc, s'.process s'.currentProcess = some proc → proc.block = 0)
    (hregister : s'.registerBlock = s.registerBlock ∨ s'.registerBlock = next) : Valid s' := by
  have hperm : (next :: rest).Perm s'.candidates := by
    rw [hcandidates]
    exact (List.perm_append_singleton next rest).symm
  refine ⟨hkin, fun q => ?_, ?_, hrunning, fun h0 => ?_⟩
  · rw [hlive q, ← h.live q, hc, hperm.mem_iff]
  · exact hperm.nodup_iff.mp (hc ▸ h.nodup)
  · rw [hlive]
    cases hregister with
    | inl he =>
      rw [he] at h0 ⊢
      exact h.registerBlock h0
    | inr he =>
      rw [he, ← h.live, hc]
      exact List.mem_cons_self

/-- The current process has gone. -/
theorem Valid.exited {process : Nat → Option Process} {waitblock : Nat → Option Waitblock}
    {record : Process} (h : Valid s) (hcur : s.process s.currentProcess = some proc)
    (ht : Terminated s.process process s.waitblock waitblock s.currentProcess record
      proc.terminationListeners.elements) :
    Valid { s with
      process := process
      waitblock := waitblock
      currentProcess := 0
      registerBlock := 0 } := by
  have hkin := h.kin.terminate hcur ht
  have hsplit := candidates_busy (h.current_ne_zero hcur)
  refine ⟨hkin, fun q => ?_, ?_, fun other hother => ?_, fun h0 => absurd rfl h0⟩
  · rw [candidates_idle rfl rfl, ht.live q, ← h.live q, hsplit, List.mem_append,
      List.mem_singleton]
    constructor
    · intro hq
      exact ⟨fun he => h.notQueued (he ▸ hq), .inl hq⟩
    · rintro ⟨hne, hq | he⟩
      · exact hq
      · exact absurd he hne
  · have hnodup := h.nodup
    rw [hsplit] at hnodup
    rw [candidates_idle rfl rfl]
    exact (List.nodup_append.mp hnodup).1
  · exact absurd hother (by simp [hkin.null])

theorem Awaits.kin {b : Waitblock} {target : Option Nat} {watch : Bool} (h : Valid s)
    (ha : Awaits s b target watch) :
    (∀ q, target = some q → q ≠ s.currentProcess ∧ b.active = true ∧ ¬ b.AnyChild) ∧
      (watch = true → b.AnyChild) := by
  cases ha with
  | children hany =>
    refine ⟨fun q hq => ?_, fun _ => hany⟩
    cases hq
  | process hany hqueue _ _ hactive =>
    refine ⟨fun q hq => ?_, fun hwatch => ?_⟩
    · obtain rfl := Option.some.inj hq
      exact ⟨fun he => h.notQueued (he ▸ hqueue), hactive, hany⟩
    · cases hwatch
  | nothing =>
    refine ⟨fun q hq => ?_, fun hwatch => ?_⟩
    · cases hq
    · cases hwatch

/-- The current process waits in the queue. -/
theorem Valid.waited {process : Nat → Option Process} {w : Nat} {b : Waitblock}
    {target : Option Nat} {watch : Bool} (h : Valid s) (h0 : s.currentProcess ≠ 0) (hw : w ≠ 0)
    (hnone : s.waitblock w = none) (hcur : s.process s.currentProcess = some proc)
    (hcaller : b.caller = s.currentProcess) (ha : Awaits s b target watch)
    (hP : Waits s.process process s.currentProcess w proc target watch) :
    Valid { s with
      process := process
      waitblock := Function.update s.waitblock w (some b)
      queue := s.queue ++ [s.currentProcess]
      currentProcess := 0
      registerBlock := 0 } := by
  obtain ⟨htarget, hwatch⟩ := ha.kin h
  have hkin := h.kin.wait hcur (h.running proc hcur) hw hnone hcaller htarget hwatch hP
  have hsplit := candidates_busy h0
  refine ⟨hkin, fun q => ?_, ?_, fun other hother => ?_, fun h => absurd rfl h⟩
  · rw [candidates_idle rfl rfl, hP.live hcur q, ← h.live q, hsplit]
  · rw [candidates_idle rfl rfl, ← hsplit]
    exact h.nodup
  · exact absurd hother (by simp [hkin.null])

theorem forked_listeners (hc : Creates s p proc) {father : Process} (linked : Bool)
    (hcur : s.process s.currentProcess = some father) :
    ∃ made, forked s.process s.currentProcess p father proc linked p = some made ∧
      made.terminationListeners.elements =
        if linked then [.process s.currentProcess] else [] := by
  have hne := hc.ne_current hcur
  have hempty : proc.terminationListeners.elements = [] := by
    rw [hc.constructed.2.2.1]
    rfl
  cases linked with
  | false => exact ⟨proc, by simp [forked], by simp [hempty]⟩
  | true =>
    refine ⟨proc.addTerminationListener (.process s.currentProcess), ?_, ?_⟩
    · simp [forked, hne]
    · simp [Process.addTerminationListener, Kqueue.pushFront, hempty]

/-- The child has been made and has gone. -/
theorem Valid.aborted {process : Nat → Option Process} {waitblock : Nat → Option Waitblock}
    {father record : Process} {linked : Bool} {table : Nat} (h : Valid s)
    (hcur : s.process s.currentProcess = some father) (hc : Creates s c proc)
    (hpid : ∀ q ∈ s.queue, ∀ other, s.process q = some other → other.pid ≠ proc.pid)
    (ht : Terminated (forked s.process s.currentProcess c father proc linked) process
      s.waitblock waitblock c record (if linked then [.process s.currentProcess] else [])) :
    Valid { s with process := process, waitblock := waitblock, table := table } := by
  have hkin := forked_kin h hc linked hcur hpid
  have hlive := aborted_live hcur hc ht
  obtain ⟨made, hmade, hlisteners⟩ := forked_listeners hc linked hcur
  refine ⟨hkin.terminate hmade (hlisteners ▸ ht), fun q => ?_, h.nodup, fun other hother => ?_,
    fun h0 => ?_⟩
  · exact (h.live q).trans (hlive q).symm
  · obtain ⟨-, old, hold, rfl⟩ := ht.process hother
    have hblock := (forked_current hc hcur hold).trans (h.running _ hcur)
    split_ifs <;> exact hblock
  · exact (hlive _).mpr (h.registerBlock h0)

theorem moves_valid (h : Valid s) (hm : Moves s a s') : Valid s' := by
  cases hm with
  | @schedule p proc hc =>
    refine h.append (hc.kin h) hc.free (fun q => ?_) fun other hother h0 => ?_
    · by_cases hq : q = p <;> simp [hq]
    · obtain ⟨hcur, -⟩ | ⟨-, hother⟩ := update_cases hother
      · obtain ⟨current, hcurrent⟩ := h.current h0
        rw [hcur, hc.free] at hcurrent
        cases hcurrent
      · exact h.running other hother
  | halt _ => exact ⟨h.kin, h.live, h.nodup, h.running, h.registerBlock⟩
  | putBack hc hnext _ _ _ =>
    refine h.chosen hc h.kin (fun q => Iff.rfl) (candidates_idle rfl rfl) ?_ (.inl rfl)
    intro proc hproc
    rw [h.kin.null] at hproc
    cases hproc
  | run hc hnext hblock =>
    refine h.chosen hc h.kin (fun q => Iff.rfl) (candidates_busy (h.kin.ne_zero hnext)) ?_
      (.inr rfl)
    intro proc hproc
    rwa [← Option.some.inj (hnext.symm.trans hproc)]
  | @release _ next _ proc b hc hnext h0 hb hactive =>
    refine h.chosen hc (h.kin.release hnext rfl h0 hb hactive) (fun q => ?_)
      (candidates_busy (h.kin.ne_zero hnext)) ?_ (.inr rfl)
    · by_cases hq : q = next
      · subst hq
        simp [hnext]
      · simp [Function.update_of_ne hq]
    · intro proc' hproc'
      simp only [Function.update_self, Option.some.injEq] at hproc'
      rw [← hproc']
  | exit hcur _ ht => exact h.exited hcur ht
  | wait h0 hw hnone hcur _ _ hcaller ha hP => exact h.waited h0 hw hnone hcur hcaller ha hP
  | fork hcur hc hpid =>
    refine h.append (forked_kin h hc _ hcur hpid) hc.free (forked_live hc _ hcur) ?_
    intro other hother _
    exact (forked_current hc hcur hother).trans (h.running _ hcur)
  | abort hcur hc hpid ht => exact h.aborted hcur hc hpid ht

/-! ## Steps are moves -/

/-- What the exception stores changes nothing that the view shows. -/
theorem Valid.storeContext (h : Valid k.view) (registers : Registers) :
    ∃ k₁, storeContext k registers = some k₁ ∧ k₁.view = k.view ∧
      k₁ = { k with process := k₁.process } :=
  storeContext_view (fun h0 hnone => h.registerBlock h0 (bareOf_none.mpr hnone)) registers

theorem Valid.exists_process (h : Valid k.view) (hp : p ∈ candidates k) :
    ∃ proc, k.process p = some proc := by
  have hlive := (h.live p).mp hp
  exact Option.ne_none_iff_exists'.mp fun hnone => hlive (bareOf_none.mpr hnone)

theorem Valid.exists_current (h : Valid k.view) (h0 : k.currentProcess ≠ 0) :
    ∃ proc, k.process k.currentProcess = some proc := by
  obtain ⟨bare, hbare⟩ := h.current h0
  obtain ⟨proc, hproc, -⟩ := exists_bareOf hbare
  exact ⟨proc, hproc⟩

theorem creates_of (h : Valid k.view) (hp : p ≠ 0) (hnone : k.process p = none)
    (hproc : proc.Constructed) (hunheard : Unheard k p) : Creates k.view p proc.bare where
  nonnull := hp
  free := bareOf_none.mpr hnone
  constructed := hproc
  unheard := by
    intro q other hother
    obtain ⟨actual, hactual, rfl⟩ := exists_bareOf hother
    exact hunheard q ((h.live q).mpr (by simp [hother])) actual hactual

theorem unused_of {pid : Nat} (h : UnusedPid k pid) :
    ∀ q ∈ k.view.queue, ∀ other, k.view.process q = some other → other.pid ≠ pid := by
  intro q hq other hother
  obtain ⟨actual, hactual, rfl⟩ := exists_bareOf hother
  exact h q hq actual hactual

/-- A process that has just been chosen, and whose wait has ended, has the PID that its block was
told in its first register. -/
def Returned (s : View) (t : Kernel) : Prop :=
  ∀ proc, s.process t.currentProcess = some proc → proc.block ≠ 0 →
    ∀ b, s.waitblock proc.block = some b →
      ∃ chosen, t.process t.currentProcess = some chosen ∧ chosen.registers.r r0 = b.terminatedPid

theorem schedule_moves (h : Valid k.view) (hp : p ≠ 0) (hnone : k.process p = none)
    (hproc : proc.Constructed) (hunheard : Unheard k p) :
    Moves k.view (.event (.schedule p proc))
      (schedule { k with process := Function.update k.process p (some proc) } p).view := by
  have hmove := Moves.schedule (creates_of h hp hnone hproc hunheard)
  have hview : (schedule { k with process := Function.update k.process p (some proc) } p).view =
      { k.view with
        process := Function.update k.view.process p (some proc.bare)
        queue := k.view.queue ++ [p] } := by
    simp only [Kernel.view, schedule, Kernel.pushBack, Kqueue.pushBack, bareOf_update,
      Option.map_some]
  rwa [hview]

theorem interrupt_moves (h : Valid k.view) (registers : Registers) :
    ∃ t, interrupt virtualToPhysical k = some t ∧
      Moves k.view (.event (.interrupt registers)) t.view ∧ Returned k.view t := by
  cases hc : candidates k with
  | nil =>
    obtain ⟨h0, hstep⟩ := interrupt_nil virtualToPhysical hc
    refine ⟨_, hstep, .halt hc, fun proc hproc => ?_⟩
    have hnull : k.view.process 0 = none := h.kin.null
    rw [show (({ k with halted := true } : Kernel)).currentProcess = 0 from h0, hnull] at hproc
    cases hproc
  | cons next rest =>
    obtain ⟨proc, hproc⟩ := h.exists_process (hc ▸ List.mem_cons_self : next ∈ candidates k)
    have hbare : k.view.process next = some proc.bare := bareOf_some hproc
    have hfront : k.view.candidates = next :: rest := hc
    obtain ⟨length, hstep⟩ := interrupt_cons virtualToPhysical hc hproc
    by_cases h0 : proc.block = 0
    · have hblocking : isBlocking k next = some false := by
        simp only [isBlocking, hproc, Option.bind_eq_bind, Option.bind_some, if_pos h0]
      rw [hblocking, Option.bind_some, releaseBlock_free (by exact hproc) h0] at hstep
      refine ⟨_, hstep, ?_, fun bare hproc' hne => ?_⟩
      · have hmove := @Moves.run _ registers _ _ _ hfront hbare h0
        simpa [Kernel.view, chosen] using hmove
      · have heq := Option.some.inj (hbare.symm.trans hproc')
        rw [← heq] at hne
        exact absurd h0 hne
    · obtain ⟨b, hb, hcaller⟩ := h.kin.block next _ hbare h0
      have hb' : k.waitblock proc.block = some b := hb
      have hblocking : isBlocking k next = some b.active := by
        simp only [isBlocking, hproc, Option.bind_eq_bind, Option.bind_some, if_neg h0, hb']
      rw [hblocking, Option.bind_some] at hstep
      cases hactive : b.active with
      | true =>
        rw [hactive, if_pos rfl] at hstep
        refine ⟨_, hstep, ?_, fun bare hproc' => ?_⟩
        · have hmove := @Moves.putBack _ registers _ _ _ _ hfront hbare h0 hb hactive
          simpa [Kernel.view, chosen, Kernel.pushBack, Kqueue.pushBack] using hmove
        · have hnull : k.view.process 0 = none := h.kin.null
          rw [show Kernel.currentProcess _ = 0 from rfl, hnull] at hproc'
          cases hproc'
      | false =>
        rw [hactive, if_neg Bool.false_ne_true, releaseBlock_inactive (by exact hproc) h0
          (by exact hb') hcaller, Option.bind_some] at hstep
        refine ⟨_, hstep, ?_, fun bare hproc' hne b' hb'' => ?_⟩
        · have hmove := @Moves.release _ registers _ _ _ _ hfront hbare h0 hb hactive
          have hlistener : (if b.waitpid = 0xffffffff ∨ b.waitpid = 0 then 0
              else proc.childTerminationListener) = 0 := by
            split_ifs with hany
            · rfl
            · by_contra hne
              obtain ⟨-, b', hb', hany'⟩ := h.kin.childListener next _ hbare hne
              rw [hb] at hb'
              exact hany (Option.some.inj hb' ▸ hany')
          rw [hlistener]
          simpa [Kernel.view, chosen, bareOf_update, Process.bare] using hmove
        · refine ⟨_, Function.update_self .., ?_⟩
          have heq := Option.some.inj (hbare.symm.trans hproc')
          have hblock : bare.block = proc.block := by rw [← heq]; rfl
          rw [hblock] at hb''
          rw [← Option.some.inj (hb'.symm.trans hb'')]
          simp

theorem exit_moves (h : Valid k.view) (h0 : k.currentProcess ≠ 0) (registers : Registers)
    (retval : Nat) :
    (∀ t, syscallExit k retval = some t →
        Moves k.view (.event (.exit registers retval)) t.view) ∧
      ((∀ proc, k.process k.currentProcess = some proc →
          ∀ q, .process q ∈ proc.terminationListeners.elements → k.process q ≠ none) →
        ∃ t, syscallExit k retval = some t) := by
  obtain ⟨proc, hproc⟩ := h.exists_current h0
  have hview := bareOf_same hproc { proc with exitCode := retval } rfl
  set process := Function.update k.process k.currentProcess
    (some { proc with exitCode := retval }) with hprocess
  have hkin : Kin (bareOf process) k.waitblock := hview ▸ h.kin
  obtain ⟨hmoves, hexists⟩ := @deleteProcess_terminated { k with process := process }
    k.currentProcess { proc with exitCode := retval } hkin (Function.update_self ..)
  have hlive : ∀ q, process q ≠ none ↔ k.process q ≠ none := by
    intro q
    rw [ne_eq, ne_eq, ← bareOf_none, hview, bareOf_none]
  have hexit : syscallExit k retval =
      (deleteProcess { k with process := process } k.currentProcess).bind fun k =>
        some { k with currentProcess := 0, registerBlock := 0 } := by
    simp only [syscallExit, modifyProcess_eq hproc, Option.bind_eq_bind, Option.bind_some]
    rfl
  rw [hexit]
  constructor
  · intro t ht
    obtain ⟨k₁, hk₁, ht⟩ := Option.bind_eq_some_iff.mp ht
    obtain rfl := Option.some.inj ht
    obtain ⟨hrest, hparents, hterminated⟩ := hmoves k₁ hk₁
    change Terminated (bareOf process) _ _ _ _ _ _ at hterminated
    rw [hview] at hterminated
    have hmove := @Moves.exit k.view registers retval proc.bare (bareOf k₁.process) k₁.waitblock
      (bareOf_some hproc) (fun q hq => fun hnone => (hlive q).mp (hparents q hq)
        (bareOf_none.mp hnone)) ⟨hterminated.gone, hterminated.parent, hterminated.other,
          hterminated.told, hterminated.untold⟩
    have hsame : ({ k₁ with currentProcess := 0, registerBlock := 0 } : Kernel).view =
        { k.view with
          process := bareOf k₁.process
          waitblock := k₁.waitblock
          currentProcess := 0
          registerBlock := 0 } := by
      rw [hrest]
      rfl
    rwa [hsame]
  · intro hparents
    obtain ⟨k₁, hk₁⟩ := hexists fun q hq => (hlive q).mpr (hparents proc hproc q hq)
    exact ⟨_, by rw [hk₁]; rfl⟩

theorem wait_moves (h : Valid k.view) (h0 : k.currentProcess ≠ 0) (hw : w ≠ 0)
    (hnone : k.waitblock w = none) (registers : Registers) (pid statusLoc : Nat)
    (memory : Waitblock) :
    ∃ t, syscallWait k pid statusLoc w memory = some t ∧
      Moves k.view (.event (.wait registers pid statusLoc w memory)) t.view := by
  obtain ⟨proc, hproc⟩ := h.exists_current h0
  have hnull : k.process 0 = none := bareOf_none.mp h.kin.null
  obtain ⟨t, b, target, watch, ht, hs⟩ :=
    syscallWait_waits (w := w) pid statusLoc memory hproc
      (fun q hq hq' => h.queued hq (bareOf_none.mpr hq')) hnull h.notQueued
  refine ⟨t, ht, ?_⟩
  rw [hs.view]
  exact .wait h0 hw hnone (bareOf_some hproc) hs.waitpid hs.location hs.caller hs.awaits hs.waits

/-! ## Forks -/

theorem fork_forked {father : Process} (proc : Process) {child : Nat} (hne : child ≠ k.currentProcess)
    (hcur : k.process k.currentProcess = some father) (linked : Bool) :
    ∃ process, fork k k.currentProcess child proc linked = some { k with process := process } ∧
      bareOf process =
        forked (bareOf k.process) k.currentProcess child father.bare proc.bare linked := by
  cases linked with
  | false =>
    refine ⟨_, rfl, ?_⟩
    rw [bareOf_update, forked, if_neg Bool.false_ne_true, Option.map_some]
  | true =>
    set listening := proc.addTerminationListener (.process k.currentProcess) with hlistening
    set parent : Process := { father with children := father.children.pushFront child }
    set adopted := Function.update (Function.update k.process child (some listening))
      k.currentProcess (some parent) with hadopted
    have hfirst : Kernel.modifyProcess
        { k with process := Function.update k.process child (some proc) } child
          (·.addTerminationListener (.process k.currentProcess)) =
        some { k with process := Function.update k.process child (some listening) } := by
      rw [modifyProcess_eq (by exact Function.update_self ..), Function.update_idem]
    have hsecond : Kernel.modifyProcess
        { k with process := Function.update k.process child (some listening) } k.currentProcess
          (fun proc => { proc with children := proc.children.pushFront child }) =
        some { k with process := adopted } :=
      modifyProcess_eq (by exact (Function.update_of_ne hne.symm ..).trans hcur) _
    have hchild : adopted child = some listening :=
      (Function.update_of_ne hne ..).trans (Function.update_self ..)
    set returning : Process := { listening with
      registers := { listening.registers with
        r := Function.update listening.registers.r 0 0 } }
    refine ⟨Function.update adopted child (some returning), ?_, ?_⟩
    · simp only [fork, if_true, linkChild, hfirst, hsecond, Option.bind_eq_bind, Option.bind_some]
      exact (modifyProcess_eq (by exact hchild) _).trans rfl
    · rw [bareOf_same hchild returning rfl, hadopted, bareOf_update, bareOf_update, forked, if_pos rfl]
      rfl

/-- The deletion of a child that is not usable. -/
theorem abort_moves (h : Valid k.view) {child table : Nat} {father : Process} {linked : Bool}
    {k₁ : Kernel} (hcur : k.view.process k.view.currentProcess = some father)
    (hcreates : Creates k.view child proc.bare)
    (hpid : ∀ q ∈ k.view.queue, ∀ other, k.view.process q = some other → other.pid ≠ proc.pid)
    (hview : k₁.view = { k.view with
      process := forked k.view.process k.view.currentProcess child father proc.bare linked
      table := table })
    (registers : Registers) :
    ∃ t, deleteProcess k₁ child = some t ∧
      Moves k.view (.fork registers child proc linked false table) t.view := by
  have hforked : bareOf k₁.process =
      forked k.view.process k.view.currentProcess child father proc.bare linked :=
    congrArg View.process hview
  have hwaitblock : k₁.waitblock = k.view.waitblock := congrArg View.waitblock hview
  obtain ⟨bare, hbare, hlisteners⟩ := forked_listeners hcreates linked hcur
  have hkin := forked_kin h hcreates linked hcur hpid
  rw [← hforked] at hbare hkin
  rw [← hwaitblock] at hkin
  obtain ⟨made, hmade, rfl⟩ := exists_bareOf hbare
  rw [bare_listeners] at hlisteners
  obtain ⟨hmoves, hexists⟩ := deleteProcess_terminated hkin hmade
  obtain ⟨t, ht⟩ := hexists fun q hq => by
    rw [hlisteners] at hq
    split_ifs at hq
    · obtain rfl : q = k.view.currentProcess := by simpa using hq
      rw [ne_eq, ← bareOf_none, hforked]
      exact (forked_live hcreates linked hcur _).mpr (.inr (by simp [hcur]))
    · simp at hq
  refine ⟨t, ht, ?_⟩
  obtain ⟨hrest, -, hterminated⟩ := hmoves t ht
  rw [hlisteners, hforked, hwaitblock] at hterminated
  have hsame : t.view = { k.view with
      process := bareOf t.process
      waitblock := t.waitblock
      table := table } := by
    calc t.view = { k₁.view with process := bareOf t.process, waitblock := t.waitblock } := by
          rw [hrest]
          rfl
      _ = _ := by rw [hview]
  rw [hsame]
  exact .abort hcur hcreates hpid hterminated

theorem fork_moves (h : Valid k.view) {child : Nat} (h0 : k.currentProcess ≠ 0)
    (hcreates : Creates k.view child proc.bare)
    (hpid : ∀ q ∈ k.view.queue, ∀ other, k.view.process q = some other → other.pid ≠ proc.pid)
    (registers : Registers) (linked usable : Bool) (table : Nat) :
    ∃ t value, syscallFork virtualToPhysical k child proc linked usable table = some (t, value) ∧
      Moves k.view (.fork registers child proc linked usable table) t.view := by
  obtain ⟨father, hfather⟩ := h.exists_current h0
  have hcur : k.view.process k.view.currentProcess = some father.bare := bareOf_some hfather
  have hne : child ≠ k.currentProcess := hcreates.ne_current hcur
  obtain ⟨process, hfork, hforked⟩ := fork_forked proc hne hfather linked
  have hlive : ∀ q, process q ≠ none ↔ q = child ∨ k.process q ≠ none := by
    intro q
    have hl := forked_live hcreates linked hcur q
    rw [ne_eq, ne_eq, ← bareOf_none, hforked, ← bareOf_none (P := k.process)]
    exact hl
  obtain ⟨parent, hparent⟩ := Option.ne_none_iff_exists'.mp
    ((hlive k.currentProcess).mpr (.inr (by simp [hfather])))
  obtain ⟨made, hmade⟩ := Option.ne_none_iff_exists'.mp ((hlive child).mpr (.inl rfl))
  set k₁ : Kernel := { k with
    process := process
    mmu := setApplicationTable virtualToPhysical k.mmu table parent.pid } with hk₁
  have hview : k₁.view = { k.view with
      process := forked k.view.process k.view.currentProcess child father.bare proc.bare linked
      table := table } := by
    simp only [Kernel.view, hk₁, hforked, setApplicationTable_current]
  have hcall : syscallFork virtualToPhysical k child proc linked usable table =
      if usable then some (k₁.pushBack child, made.pid)
      else (deleteProcess k₁ child).bind fun k => some (k, 0xffffffff) := by
    simp only [syscallFork, hfork, Option.bind_eq_bind, Option.bind_some, hparent, hmade]
    rfl
  rw [hcall]
  cases usable with
  | true =>
    refine ⟨_, _, if_pos rfl, ?_⟩
    have hpush : (k₁.pushBack child).view = { k₁.view with queue := k₁.view.queue ++ [child] } :=
      rfl
    rw [hpush, hview]
    exact .fork hcur hcreates hpid
  | false =>
    obtain ⟨t, ht, hmoves⟩ := abort_moves h hcur hcreates hpid hview registers
    exact ⟨t, 0xffffffff, by rw [if_neg Bool.false_ne_true, ht]; rfl, hmoves⟩

/-! ## Steps and runs -/

/-- A process exits whose parent is gone. -/
def Orphaned (k : Kernel) : Action → Prop
  | .event (.exit _ _) => ∃ proc, k.process k.currentProcess = some proc ∧
      ∃ q, .process q ∈ proc.terminationListeners.elements ∧ k.process q = none
  | _ => False

/-- What an enabled action does, and when it happens. -/
theorem action_moves (h : Valid k.view) (he : a.Enabled k) :
    (∀ t, performAction virtualToPhysical k a = some t → Moves k.view a t.view ∧
        ∀ registers, a = .event (.interrupt registers) → Returned k.view t) ∧
      (¬ Orphaned k a → ∃ t, performAction virtualToPhysical k a = some t) := by
  -- what happens for sure, happens in no other way
  have hsure : ∀ t, performAction virtualToPhysical k a = some t → Moves k.view a t.view →
      (∀ registers, a = .event (.interrupt registers) → Returned k.view t) →
      (∀ t, performAction virtualToPhysical k a = some t → Moves k.view a t.view ∧
        ∀ registers, a = .event (.interrupt registers) → Returned k.view t) ∧
      (¬ Orphaned k a → ∃ t, performAction virtualToPhysical k a = some t) := by
    intro t ht hmoves hreturned
    refine ⟨fun t' ht' => ?_, fun _ => ⟨t, ht⟩⟩
    obtain rfl := Option.some.inj (ht.symm.trans ht')
    exact ⟨hmoves, hreturned⟩
  cases a with
  | event e =>
    cases e with
    | schedule p proc =>
      refine hsure _ rfl (schedule_moves h he.1.1 he.1.2.1 he.1.2.2 (he.2 p proc rfl)) ?_
      rintro registers ⟨⟩
    | interrupt registers =>
      obtain ⟨k₁, hstore, hview, -⟩ := h.storeContext registers
      obtain ⟨t, ht, hmoves, hreturned⟩ :=
        @interrupt_moves virtualToPhysical k₁ (hview ▸ h) registers
      rw [hview] at hmoves hreturned
      refine hsure t ?_ hmoves fun _ _ => hreturned
      simp only [performAction, perform, hstore, Option.bind_eq_bind, Option.bind_some, ht]
    | exit registers retval =>
      obtain ⟨k₁, hstore, hview, hrest⟩ := h.storeContext registers
      have hcur : k₁.currentProcess = k.currentProcess := by rw [hrest]
      have hperform : performAction virtualToPhysical k (.event (.exit registers retval)) =
          syscallExit k₁ retval := by
        simp only [performAction, perform, hstore, Option.bind_eq_bind, Option.bind_some]
      have h0 : k.currentProcess ≠ 0 := he.1
      obtain ⟨hmoves, hexists⟩ := exit_moves (hview ▸ h) (hcur ▸ h0) registers retval
      rw [hview] at hmoves
      rw [hperform]
      refine ⟨fun t ht => ⟨hmoves t ht, fun registers he => by cases he⟩, fun hnot => ?_⟩
      refine hexists fun proc hproc q hq hnone => hnot ?_
      have hsame : bareOf k₁.process = bareOf k.process := congrArg View.process hview
      rw [hcur] at hproc
      obtain ⟨old, hold, hbare⟩ := exists_bareOf
        ((congrFun hsame k.currentProcess).symm.trans (bareOf_some hproc))
      refine ⟨old, hold, q, ?_, ?_⟩
      · have hlisteners : old.terminationListeners = proc.terminationListeners := by
          simpa using congrArg Process.terminationListeners hbare
        rwa [hlisteners]
      · rw [← bareOf_none, ← hsame]
        exact bareOf_none.mpr hnone
    | wait registers pid statusLoc w memory =>
      obtain ⟨k₁, hstore, hview, hrest⟩ := h.storeContext registers
      have hcur : k₁.currentProcess = k.currentProcess := by rw [hrest]
      have hnone : k₁.waitblock w = none := by
        rw [hrest]
        exact he.1.2.2
      have h0 : k.currentProcess ≠ 0 := he.1.1
      obtain ⟨t, ht, hmoves⟩ := wait_moves (hview ▸ h) (hcur ▸ h0) he.1.2.1 hnone registers pid
        statusLoc memory
      rw [hview] at hmoves
      refine hsure t ?_ hmoves fun registers he => by cases he
      simp only [performAction, perform, hstore, Option.bind_eq_bind, Option.bind_some, ht]
  | fork registers child proc linked usable table =>
    obtain ⟨h0, hp, hnone, hproc, hunheard, hpid⟩ := he
    obtain ⟨k₁, hstore, hview, hrest⟩ := h.storeContext registers
    have hcur : k₁.currentProcess = k.currentProcess := by rw [hrest]
    obtain ⟨t, value, ht, hmoves⟩ := @fork_moves virtualToPhysical k₁ proc (hview ▸ h) child
      (hcur ▸ h0) (hview ▸ creates_of h hp hnone hproc hunheard) (hview ▸ unused_of hpid)
      registers linked usable table
    rw [hview] at hmoves
    refine hsure t ?_ hmoves fun registers he => by cases he
    simp only [performAction, hstore, Option.bind_eq_bind, Option.bind_some, ht]

theorem step_moves (h : Valid k.view) (hstep : ForkStep virtualToPhysical k a t) :
    Moves k.view a t.view := ((action_moves h hstep.2.1).1 t hstep.2.2).1

theorem step_returned (h : Valid k.view) {registers : Registers}
    (hstep : ForkStep virtualToPhysical k (.event (.interrupt registers)) t) :
    Returned k.view t := ((action_moves h hstep.2.1).1 t hstep.2.2).2 registers rfl

theorem step_valid (h : Valid k.view) (hstep : ForkStep virtualToPhysical k a t) : Valid t.view :=
  moves_valid h (step_moves h hstep)

theorem run_valid {mmu : Mmu} {actions : List Action}
    (hrun : Run (ForkStep virtualToPhysical) (initial mmu) actions k) : Valid k.view :=
  hrun.invariant (I := fun k => Valid k.view) (valid_initial mmu) fun _ _ _ => step_valid

end WagtailScheduler
