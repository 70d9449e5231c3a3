import Wagtail.Library.RoundRobin
import Wagtail.SchedulerQueue

/-!
# Turns of the processes

The scheduler is a round robin: an interrupt gives a turn to the front of the queue, where
a process that is still blocked passes, and the other actions add a process or take one
away. So a process waits for those ahead of it and for no others, and two processes that
live get as many turns, up to one.
-/
namespace WagtailScheduler

open WagtailKqueue
open WagtailMmu
open Runs (Run Guarded)
open RoundRobin (Rota turns)

variable {virtualToPhysical : Nat → Nat} {k t : Kernel} {s s' : View} {p q : Nat} {a : Action}

/-! ## The rota of the processes -/

def View.rota (s : View) : Rota Nat :=
  ⟨s.queue, if s.currentProcess = 0 then none else some s.currentProcess⟩

theorem rota_members (s : View) : s.rota.members = s.candidates := by
  unfold View.rota Rota.members View.candidates
  split_ifs <;> rfl

/-- What an action does to the rota. A child that is not usable never gets there. -/
def happened (k : Kernel) : Action → Option (RoundRobin.Event Nat)
  | .event (.schedule p _) => some (.join p)
  | .event (.interrupt _) => (candidates k).head?.map .turn
  | .event (.exit _ _) => some (.leave k.currentProcess)
  | .event (.wait _ _ _ _ _) => some .pause
  | .fork _ child _ _ usable _ => if usable then some (.join child) else none

theorem Creates.new {proc : Process} (hv : Valid s) (h : Creates s p proc) :
    p ∉ s.rota.members := by
  rw [rota_members, hv.live p, not_not]
  exact h.free

theorem rota_current (h : s.currentProcess ≠ 0) : s.rota = ⟨s.queue, some s.currentProcess⟩ := by
  rw [View.rota, if_neg h]

theorem happened_interrupt {registers : Registers} {next : Nat} {rest : List Nat}
    (h : k.view.candidates = next :: rest) :
    happened k (.event (.interrupt registers)) = some (.turn next) := by
  have hcandidates : candidates k = next :: rest := h
  rw [happened, hcandidates]
  rfl

theorem Valid.candidate_ne_zero {next : Nat} {rest : List Nat} (hv : Valid s)
    (h : s.candidates = next :: rest) : next ≠ 0 := by
  rintro rfl
  exact (hv.live 0).mp (h ▸ List.mem_cons_self) hv.kin.null

/-- A step of the scheduler is one of the rota, or leaves it alone. -/
theorem moves_rota (hv : Valid k.view) (hm : Moves k.view a s') :
    (∀ e ∈ happened k a, RoundRobin.Step k.view.rota e s'.rota) ∧
      (happened k a = none → s'.rota = k.view.rota) := by
  cases hm with
  | schedule hc =>
    refine ⟨fun e he => ?_, nofun⟩
    obtain rfl := Option.some.inj he
    exact .join (hc.new hv)
  | halt hc =>
    have hcandidates : candidates k = [] := hc
    rw [happened, hcandidates]
    exact ⟨nofun, fun _ => rfl⟩
  | @putBack _ next rest _ _ hc =>
    rw [happened_interrupt hc]
    refine ⟨fun e he => ?_, nofun⟩
    obtain rfl := Option.some.inj he
    exact .pass ((rota_members _).trans hc)
  | @run _ next rest _ hc =>
    rw [happened_interrupt hc]
    refine ⟨fun e he => ?_, nofun⟩
    obtain rfl := Option.some.inj he
    show RoundRobin.Step _ _ ⟨rest, if next = 0 then none else some next⟩
    rw [if_neg (hv.candidate_ne_zero hc)]
    exact .run ((rota_members _).trans hc)
  | @release _ next rest _ _ hc =>
    rw [happened_interrupt hc]
    refine ⟨fun e he => ?_, nofun⟩
    obtain rfl := Option.some.inj he
    show RoundRobin.Step _ _ ⟨rest, if next = 0 then none else some next⟩
    rw [if_neg (hv.candidate_ne_zero hc)]
    exact .run ((rota_members _).trans hc)
  | exit hcur =>
    refine ⟨fun e he => ?_, nofun⟩
    obtain rfl := Option.some.inj he
    rw [rota_current (hv.current_ne_zero hcur)]
    exact .leave
  | wait hcur =>
    refine ⟨fun e he => ?_, nofun⟩
    obtain rfl := Option.some.inj he
    rw [rota_current hcur]
    exact .pause
  | fork _ hc =>
    refine ⟨fun e he => ?_, nofun⟩
    obtain rfl := Option.some.inj he
    exact .join (hc.new hv)
  | abort => exact ⟨nofun, fun _ => rfl⟩

/-! ## Runs -/

/-- The scheduler, and what has happened to the rota. -/
structure Record where
  kernel : Kernel
  events : List (RoundRobin.Event Nat)

def RecordStep (virtualToPhysical : Nat → Nat) (s : Record) (a : Action) (t : Record) : Prop :=
  ForkStep virtualToPhysical s.kernel a t.kernel ∧
    t.events = s.events ++ (happened s.kernel a).toList

/-- The recorded events are a run of the rota, and no others. -/
theorem record_rota {good : RoundRobin.Event Nat → Prop} {actions : List Action} {s t : Record}
    {r : Rota Nat} (hv : Valid s.kernel.view)
    (hrota : Run (Guarded (fun _ e => good e) RoundRobin.Step) r s.events s.kernel.view.rota)
    (hrun : Run (Guarded (fun s a => ∀ e ∈ happened s.kernel a, good e)
      (RecordStep virtualToPhysical)) s actions t) :
    Run (Guarded (fun _ e => good e) RoundRobin.Step) r t.events t.kernel.view.rota := by
  refine (hrun.invariant (I := fun t => Valid t.kernel.view ∧
    Run (Guarded (fun _ e => good e) RoundRobin.Step) r t.events t.kernel.view.rota) ⟨hv, hrota⟩
    fun t a u ⟨hv, hrota⟩ ⟨hgood, hstep, hevents⟩ => ?_).2
  obtain ⟨hsome, hnone⟩ := moves_rota hv (step_moves hv hstep)
  refine ⟨step_valid hv hstep, ?_⟩
  rw [hevents]
  cases hhappened : happened t.kernel a with
  | none =>
    rw [Option.toList_none, List.append_nil, hnone hhappened]
    exact hrota
  | some e =>
    rw [Option.toList_some]
    exact hrota.snoc ⟨hgood e hhappened, hsome e hhappened⟩

theorem record_rota_all {actions : List Action} {s t : Record} (hv : Valid s.kernel.view)
    (hevents : s.events = []) (hrun : Run (RecordStep virtualToPhysical) s actions t) :
    Run RoundRobin.Step s.kernel.view.rota t.events t.kernel.view.rota := by
  have hall : Run (Guarded (fun _ _ => True) RoundRobin.Step) s.kernel.view.rota t.events
      t.kernel.view.rota :=
    record_rota hv (hevents ▸ .nil) (hrun.mono fun _ _ _ hstep => ⟨fun _ _ => trivial, hstep⟩)
  exact hall.unguard

/-- The step with its record, if it is enabled. -/
def recordStep (s : Record) (a : Action) : Option Record :=
  if s.kernel.halted = false ∧ a.enabled s.kernel = true then
    (performAction id s.kernel a).map fun k => ⟨k, s.events ++ (happened s.kernel a).toList⟩
  else none

theorem recordStep_step {s t : Record} (h : recordStep s a = some t) : RecordStep id s a t := by
  unfold recordStep at h
  split_ifs at h with hcond
  obtain ⟨k, hk, rfl⟩ := Option.map_eq_some_iff.mp h
  exact ⟨⟨hcond.1, Action.enabled_sound hcond.2, hk⟩, rfl⟩

/-- Neither of the two processes exits. -/
def Remain (p q : Nat) (s : Record) : Action → Prop
  | .event (.exit _ _) => s.kernel.currentProcess ≠ p ∧ s.kernel.currentProcess ≠ q
  | _ => True

theorem remain_stay {s : Record} (h : Remain p q s a) :
    ∀ e ∈ happened s.kernel a, e ≠ .leave p ∧ e ≠ .leave q := by
  intro e he
  cases a with
  | event event =>
    cases event with
    | schedule | wait =>
      obtain rfl := Option.some.inj he
      exact ⟨nofun, nofun⟩
    | interrupt =>
      obtain ⟨next, -, rfl⟩ := Option.map_eq_some_iff.mp he
      exact ⟨nofun, nofun⟩
    | exit =>
      obtain rfl := Option.some.inj he
      exact ⟨fun hp => h.1 (RoundRobin.Event.leave.inj hp),
        fun hq => h.2 (RoundRobin.Event.leave.inj hq)⟩
  | fork registers child proc linked usable table =>
    cases usable with
    | false => cases he
    | true =>
      obtain rfl := Option.some.inj he
      exact ⟨nofun, nofun⟩

instance (p q : Nat) (s : Record) (a : Action) : Decidable (Remain p q s a) :=
  match a with
  | .event (.exit _ _) => inferInstanceAs (Decidable (_ ∧ _))
  | .event (.schedule _ _) | .event (.interrupt _) | .event (.wait _ _ _ _ _)
  | .fork _ _ _ _ _ _ => inferInstanceAs (Decidable True)

def remainStep (p q : Nat) (s : Record) (a : Action) : Option Record :=
  if Remain p q s a then recordStep s a else none

theorem remainStep_step {s t : Record} (h : remainStep p q s a = some t) :
    Guarded (Remain p q) (RecordStep id) s a t := by
  unfold remainStep at h
  split_ifs at h with hcond
  exact ⟨hcond, recordStep_step h⟩

/-- Thread 1 is still blocked at its turn. -/
def rounds : List Action := List.replicate 5 (.event (.interrupt interrupted))

def roundsEnd : Record :=
  (rounds.foldlM (remainStep 0x2000 0x1000) ⟨broodEnd.kernel, []⟩).get (by decide +kernel)

theorem rounds_run : Run (Guarded (Remain 0x2000 0x1000) (RecordStep id)) ⟨broodEnd.kernel, []⟩
    rounds roundsEnd :=
  Run.of_foldlM (fun _ _ _ => remainStep_step) (Option.some_get _).symm

end WagtailScheduler
