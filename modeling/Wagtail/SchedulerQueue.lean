import Wagtail.SchedulerMoves

/-!
# The process queue over whole runs

Every live process is in the queue or the current one, once, and the queue is
first in, first out: a step takes at most the front away and appends at the back,
so what is ahead of a waiting process only gets less.
-/
namespace WagtailScheduler

open WagtailKqueue
open WagtailMmu
open Runs (Run Guarded)

variable {virtualToPhysical : Nat → Nat} {k t : Kernel} {s s' : View} {p : Nat} {a : Action}

/-! ## What has happened -/

/-- A termination, with the listeners that were told. -/
structure Exit where
  process : Nat
  pid : Nat
  code : Nat
  listeners : List Listener
  deriving DecidableEq, Repr

/-- The kernel, the processes that have been made and have not terminated, and the
terminations. -/
structure History where
  kernel : Kernel
  live : List Nat
  exits : List Exit

def History.start (k : Kernel) : History := ⟨k, [], []⟩

/-- Schedules and forks make processes, exits end them. -/
def liveAfter (k : Kernel) (live : List Nat) : Action → List Nat
  | .event (.schedule p _) => live ++ [p]
  | .event (.exit _ _) => live.erase k.currentProcess
  | .fork _ child _ _ true _ => live ++ [child]
  | _ => live

/-- A child that is not usable terminates in the call that has made it. -/
def exitsOf (s : View) : Action → List Exit
  | .event (.exit _ retval) => (s.process s.currentProcess).toList.map fun proc =>
      ⟨s.currentProcess, proc.pid, retval, proc.terminationListeners.elements⟩
  | .fork _ child proc linked false _ =>
      [⟨child, proc.pid, proc.exitCode, if linked then [.process s.currentProcess] else []⟩]
  | _ => []

def HistoryStep (virtualToPhysical : Nat → Nat) (s : History) (a : Action) (t : History) : Prop :=
  ForkStep virtualToPhysical s.kernel a t.kernel ∧ t.live = liveAfter s.kernel s.live a ∧
    t.exits = s.exits ++ exitsOf s.kernel.view a

theorem history_kernel {s t : History} {actions : List Action}
    (hrun : Run (HistoryStep virtualToPhysical) s actions t) :
    Run (ForkStep virtualToPhysical) s.kernel actions t.kernel := by
  have hkernels : ∃ k, Run (ForkStep virtualToPhysical) s.kernel actions k ∧ t.kernel = k :=
    hrun.simulate (R := fun s k => s.kernel = k) rfl fun _ _ u _ hR hstep =>
      ⟨u.kernel, hR ▸ hstep.1, rfl⟩
  obtain ⟨k, hk, rfl⟩ := hkernels
  exact hk

/-! ## Live processes -/

/-- The list has the live processes, each once. -/
def Lives (live : List Nat) (s : View) : Prop :=
  live.Nodup ∧ ∀ p, p ∈ live ↔ s.process p ≠ none

theorem Lives.append {live : List Nat} (h : Lives live s) (hfree : s.process p = none)
    (hlive : ∀ q, s'.process q ≠ none ↔ q = p ∨ s.process q ≠ none) : Lives (live ++ [p]) s' := by
  refine ⟨List.nodup_append.mpr ⟨h.1, by simp, ?_⟩, fun q => ?_⟩
  · intro q hq r hr hqr
    rw [List.mem_singleton.mp hr] at hqr
    exact (h.2 q).mp hq (hqr ▸ hfree)
  · rw [hlive q, List.mem_append, List.mem_singleton, h.2 q, or_comm]

theorem Lives.same {live : List Nat} (h : Lives live s)
    (hlive : ∀ q, s'.process q ≠ none ↔ s.process q ≠ none) : Lives live s' :=
  ⟨h.1, fun q => (h.2 q).trans (hlive q).symm⟩

theorem moves_lives {live : List Nat} (h : Lives live k.view) (hm : Moves k.view a s') :
    Lives (liveAfter k live a) s' := by
  cases hm with
  | @schedule p proc hc =>
    refine h.append hc.free fun q => ?_
    by_cases hq : q = p <;> simp [hq]
  | halt => exact h
  | putBack => exact h
  | run => exact h
  | @release _ next _ proc b _ hnext =>
    refine h.same fun q => ?_
    by_cases hq : q = next
    · subst hq
      simp [hnext]
    · simp [Function.update_of_ne hq]
  | exit hcur _ ht =>
    refine ⟨h.1.erase _, fun q => ?_⟩
    rw [ht.live q, ← h.2 q]
    exact h.1.mem_erase_iff
  | wait _ _ _ hcur _ _ _ _ hP => exact h.same (hP.live hcur)
  | fork hcur hc _ => exact h.append hc.free (forked_live hc _ hcur)
  | abort hcur hc _ ht => exact h.same (aborted_live hcur hc ht)

/-! ## First in, first out -/

/-- The interrupt takes this process from the queue. -/
def Pops (p : Nat) (k : Kernel) (a : Action) : Prop :=
  (candidates k).head? = some p ∧ ∃ registers, a = .event (.interrupt registers)

/-- A step leaves the queue in front of what it appends, or an interrupt leaves the candidates
but the first. -/
theorem moves_queue (hm : Moves s a s') :
    (∃ appended, s'.queue = s.queue ++ appended) ∨
      ∃ next rest appended, s.candidates = next :: rest ∧ s'.queue = rest ++ appended ∧
        ∃ registers, a = .event (.interrupt registers) := by
  cases hm with
  | schedule => exact .inl ⟨_, rfl⟩
  | halt => exact .inl ⟨[], (List.append_nil _).symm⟩
  | putBack hc => exact .inr ⟨_, _, _, hc, rfl, _, rfl⟩
  | run hc => exact .inr ⟨_, _, [], hc, (List.append_nil _).symm, _, rfl⟩
  | release hc => exact .inr ⟨_, _, [], hc, (List.append_nil _).symm, _, rfl⟩
  | exit => exact .inl ⟨[], (List.append_nil _).symm⟩
  | wait => exact .inl ⟨_, rfl⟩
  | fork => exact .inl ⟨_, rfl⟩
  | abort => exact .inl ⟨[], (List.append_nil _).symm⟩

/-- A step removes at most the front of the queue and appends at its back. -/
theorem moves_fifo (hm : Moves s a s') :
    ∃ n ≤ 1, ∃ appended, s'.queue = s.queue.drop n ++ appended := by
  obtain ⟨appended, hqueue⟩ | ⟨next, rest, appended, hc, hqueue, -⟩ := moves_queue hm
  · exact ⟨0, by omega, appended, hqueue⟩
  · refine ⟨1, le_rfl, ?_⟩
    cases hq : s.queue with
    | nil => exact ⟨rest ++ appended, by rw [hqueue]; rfl⟩
    | cons q queue =>
      rw [View.candidates, hq, List.cons_append] at hc
      obtain ⟨-, hrest⟩ := List.cons.inj hc
      refine ⟨(if s.currentProcess = 0 then [] else [s.currentProcess]) ++ appended, ?_⟩
      rw [hqueue, ← hrest, List.drop_one, List.tail_cons, List.append_assoc]

/-- What is ahead of a process that is not taken only gets less. -/
theorem moves_ahead {ahead behind : List Nat} (hm : Moves k.view a s')
    (hqueue : k.view.queue = ahead ++ p :: behind) (hpops : ¬ Pops p k a) :
    ∃ ahead' behind', s'.queue = ahead' ++ p :: behind' ∧ ahead' <:+ ahead := by
  obtain ⟨appended, hnext⟩ | ⟨next, rest, appended, hc, hnext, hinterrupt⟩ := moves_queue hm
  · refine ⟨ahead, behind ++ appended, ?_, List.suffix_rfl⟩
    rw [hnext, hqueue, List.append_assoc, List.cons_append]
  · rw [View.candidates, hqueue] at hc
    cases ahead with
    | nil =>
      refine absurd ⟨?_, hinterrupt⟩ hpops
      have hfront : candidates k = p :: (behind ++
          if k.currentProcess = 0 then [] else [k.currentProcess]) := by
        rw [← view_candidates, View.candidates, hqueue]
        rfl
      rw [hfront]
      rfl
    | cons q ahead =>
      obtain ⟨-, hrest⟩ := List.cons.inj hc
      refine ⟨ahead, behind ++ ((if k.view.currentProcess = 0 then [] else
        [k.view.currentProcess]) ++ appended), ?_, List.suffix_cons q ahead⟩
      rw [hnext, ← hrest]
      simp only [List.append_eq, List.append_assoc, List.cons_append]

/-! ## Runs -/

theorem run_ahead {ahead behind : List Nat} {actions : List Action} (h : Valid k.view)
    (hqueue : k.processQueue.elements = ahead ++ p :: behind)
    (hrun : Run (Guarded (fun k a => ¬ Pops p k a) (ForkStep virtualToPhysical)) k actions t) :
    ∃ ahead' behind', t.processQueue.elements = ahead' ++ p :: behind' ∧ ahead' <:+ ahead := by
  have hboth : Valid t.view ∧ ∃ ahead' behind', t.view.queue = ahead' ++ p :: behind' ∧
      ahead' <:+ ahead := by
    refine hrun.invariant (I := fun t : Kernel => Valid t.view ∧
      ∃ ahead' behind', t.view.queue = ahead' ++ p :: behind' ∧ ahead' <:+ ahead)
      ⟨h, ahead, behind, hqueue, List.suffix_rfl⟩ ?_
    rintro t a u ⟨hvalid, ahead', behind', hqueue', hsuffix⟩ ⟨hpops, hstep⟩
    obtain ⟨ahead'', behind'', hqueue'', hsuffix'⟩ :=
      moves_ahead (step_moves hvalid hstep) hqueue' hpops
    exact ⟨step_valid hvalid hstep, ahead'', behind'', hqueue'', hsuffix'.trans hsuffix⟩
  exact hboth.2

theorem run_lives {mmu : Mmu} {actions : List Action} {s : History}
    (hrun : Run (HistoryStep virtualToPhysical) (History.start (initial mmu)) actions s) :
    Valid s.kernel.view ∧ Lives s.live s.kernel.view := by
  refine hrun.invariant (I := fun s => Valid s.kernel.view ∧ Lives s.live s.kernel.view)
    ⟨valid_initial mmu, List.nodup_nil, fun p => ?_⟩ ?_
  · simp [History.start, initial, Kernel.view, bareOf]
  · rintro s a t ⟨hvalid, hlives⟩ ⟨hstep, hlive, -⟩
    refine ⟨step_valid hvalid hstep, ?_⟩
    rw [hlive]
    exact moves_lives hlives (step_moves hvalid hstep)

/-- In every run, the queue and the current process are the processes that have been made and
have not exited, each once. Every step removes at most the front and appends at the back; what is
ahead of a process that is not taken only gets less; and what is enabled happens, unless a process
exits whose parent is gone. -/
theorem run_queue {mmu : Mmu} {actions : List Action} {s : History}
    (hrun : Run (HistoryStep virtualToPhysical) (History.start (initial mmu)) actions s) :
    s.live.Nodup ∧ (candidates s.kernel).Perm s.live ∧
    (∀ a t, ForkStep virtualToPhysical s.kernel a t → ∃ n ≤ 1, ∃ appended,
      t.processQueue.elements = s.kernel.processQueue.elements.drop n ++ appended) ∧
    (∀ p ahead behind, s.kernel.processQueue.elements = ahead ++ p :: behind → ∀ more t,
      Run (Guarded (fun k a => ¬ Pops p k a) (ForkStep virtualToPhysical)) s.kernel more t →
        ∃ ahead' behind', t.processQueue.elements = ahead' ++ p :: behind' ∧
          ahead' <:+ ahead) ∧
    ∀ a : Action, s.kernel.halted = false → a.Enabled s.kernel → ¬ Orphaned s.kernel a →
      ∃ t, ForkStep virtualToPhysical s.kernel a t := by
  obtain ⟨hvalid, hnodup, hlive⟩ := run_lives hrun
  refine ⟨hnodup, ?_, fun a t hstep => ?_, fun p ahead behind hqueue more t hmore => ?_,
    fun a hhalted he hnot => ?_⟩
  · refine (List.perm_ext_iff_of_nodup hvalid.nodup hnodup).mpr fun p => ?_
    rw [hlive p]
    exact hvalid.live p
  · exact moves_fifo (step_moves hvalid hstep)
  · exact run_ahead hvalid hqueue hmore
  · obtain ⟨t, ht⟩ := (action_moves hvalid he).2 hnot
    exact ⟨t, hhalted, he, ht⟩

/-! ## A parent and two children -/

instance (k : Kernel) (p : Nat) : Decidable (Unheard k p) :=
  inferInstanceAs (Decidable (∀ q ∈ candidates k, ∀ proc ∈ k.process q, _))

instance (k : Kernel) (pid : Nat) : Decidable (UnusedPid k pid) :=
  inferInstanceAs (Decidable (∀ q ∈ k.processQueue.elements, ∀ proc ∈ k.process q, _))

/-- The actions that are enabled, for a program to check. -/
def Action.enabled (k : Kernel) : Action → Bool
  | .event (.schedule p proc) => decide ((Event.schedule p proc).Enabled k) && decide (Unheard k p)
  | .event e => decide (e.Enabled k)
  | .fork _ child proc _ _ _ => decide (k.currentProcess ≠ 0 ∧ child ≠ 0 ∧ k.process child = none ∧
      proc.block = 0 ∧ proc.children = .empty ∧ proc.terminationListeners = .empty ∧
      proc.childTerminationListener = 0) && decide (Unheard k child) &&
      decide (UnusedPid k proc.pid)

theorem Action.enabled_sound {a : Action} (h : a.enabled k = true) : a.Enabled k := by
  cases a with
  | event e =>
    cases e with
    | schedule p proc =>
      simp only [Action.enabled, Bool.and_eq_true, decide_eq_true_eq] at h
      refine ⟨h.1, fun q other he => ?_⟩
      obtain ⟨rfl, -⟩ := Event.schedule.inj he
      exact h.2
    | interrupt => exact ⟨trivial, by rintro p proc ⟨⟩⟩
    | exit => exact ⟨of_decide_eq_true h, by rintro p proc ⟨⟩⟩
    | wait => exact ⟨of_decide_eq_true h, by rintro p proc ⟨⟩⟩
  | fork registers child proc linked usable table =>
    simp only [Action.enabled, Bool.and_eq_true, decide_eq_true_eq] at h
    obtain ⟨⟨⟨h0, hp, hnone, hproc⟩, hunheard⟩, hpid⟩ := h
    exact ⟨h0, hp, hnone, hproc, hunheard, hpid⟩

/-- The step of a history, if it is enabled. -/
def historyStep (s : History) (a : Action) : Option History :=
  if s.kernel.halted = false ∧ a.enabled s.kernel = true then
    (performAction id s.kernel a).map fun k =>
      ⟨k, liveAfter s.kernel s.live a, s.exits ++ exitsOf s.kernel.view a⟩
  else none

theorem historyStep_step {s t : History} (h : historyStep s a = some t) : HistoryStep id s a t := by
  unfold historyStep at h
  split_ifs at h with hcond
  obtain ⟨k, hk, rfl⟩ := Option.map_eq_some_iff.mp h
  exact ⟨⟨hcond.1, Action.enabled_sound hcond.2, hk⟩, rfl, rfl⟩

/-- Thread 1 forks two children, of which the first runs while thread 1 waits for any of
them. -/
def brood : List Action :=
  [.event (.schedule 0x1000 (newThread 1)), .event (.interrupt interrupted),
    .fork interrupted 0x2000 (newThread 2) true true 0,
    .fork interrupted 0x3000 (newThread 3) true true 0,
    .event (.wait interrupted 0xffffffff 0x5000 0x4000 ⟨0, 0, 0, 0, 0, false⟩),
    .event (.interrupt interrupted)]

def broodEnd : History :=
  (brood.foldlM historyStep (History.start (initial bootMmu))).get (by decide +kernel)

theorem brood_run : Run (HistoryStep id) (History.start (initial bootMmu)) brood broodEnd :=
  Run.of_foldlM (fun _ _ _ => historyStep_step) (Option.some_get _).symm

theorem brood_queue : (candidates broodEnd.kernel).Perm [0x1000, 0x2000, 0x3000] ∧
    broodEnd.kernel.processQueue.elements = [0x3000, 0x1000] := by
  have hlive : broodEnd.live = [0x1000, 0x2000, 0x3000] := by decide +kernel
  exact ⟨hlive ▸ (run_queue brood_run).2.1, by decide +kernel⟩

end WagtailScheduler
