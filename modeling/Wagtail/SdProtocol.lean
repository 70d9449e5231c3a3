import Wagtail.SdCard

/-!
# The protocol of the SD card

What the initialization may do, as a monitor of its accesses: which command may follow which,
with which argument, that nothing is sent while a command is in progress or its result has not
been looked at, that nothing follows an error, and what has to be done before interrupts are
enabled. The driver keeps to it whatever the controller answers.
-/
namespace WagtailSdCard

open Bus (Access Driver Monitor Triple read write loop)
open WagtailSd (cc tc brr cto dto dcrc deb ddir rspType ccce dp indx bits)

/-! ## The monitor -/

/-- What the card has got to. -/
inductive Stage where
  | reset
  | idle
  | operable
  | ready
  | identified
  | standby
  | transfer
  | failed
  deriving DecidableEq, Repr

/-- What has been written to the command register last and not been completed. -/
inductive Sent where
  | stream
  | command (index : Nat)
  deriving DecidableEq, Repr

/-- `answered` is a command whose response has not been read yet. -/
structure Card where
  stage : Stage
  rca : Nat
  application : Bool
  sent : Option Sent
  answered : Option Nat
  argument : Nat
  stream : Bool
  cleared : Bool
  clock : Bool
  wide : Bool
  control : Nat
  interrupts : Bool
  deriving DecidableEq, Repr

def Card.start : Card where
  stage := .reset
  rca := 0
  application := false
  sent := none
  answered := none
  argument := 0
  stream := false
  cleared := false
  clock := false
  wide := false
  control := 0
  interrupts := false

/-- The kind of response to a command. -/
def responseType : Nat → Nat
  | 0 => 0
  | 2 => 1
  | 7 => 3
  | _ => 2

/-- The commands that may be sent, with their arguments. -/
def Card.Allows (c : Card) : Nat → Prop
  | 0 => c.stage = .reset ∧ c.argument = 0
  | 8 => c.stage = .idle ∧ c.argument = 0x1aa
  | 55 => (c.stage = .operable ∨ c.stage = .transfer) ∧ c.application = false ∧
      c.argument = c.rca <<< 16
  | 41 => c.stage = .operable ∧ c.application = true ∧ c.argument = 0x50060000
  | 2 => c.stage = .ready ∧ c.argument = 0
  | 3 => c.stage = .identified ∧ c.argument = 0
  | 7 => c.stage = .standby ∧ c.argument = c.rca <<< 16
  | 6 => c.stage = .transfer ∧ c.application = true ∧ c.argument = 2
  | 17 => c.stage = .transfer ∧ c.application = false ∧ c.interrupts = true
  | _ => False

instance (c : Card) (index : Nat) : Decidable (c.Allows index) := by
  unfold Card.Allows
  split <;> infer_instance

/-- A write to the command register. -/
def Card.send (c : Card) (word : Nat) : Option Card :=
  if c.sent = none ∧ c.answered = none ∧ c.cleared = true ∧ c.clock = true then
    if c.stream then
      if word = 0 then some { c with sent := some .stream, cleared := false } else none
    else if c.Allows (word >>> indx) ∧ word >>> rspType % 4 = responseType (word >>> indx) then
      some { c with sent := some (.command (word >>> indx)), cleared := false }
    else none
  else none

/-- A command has failed. What fails after the card has been selected is not needed. -/
def Card.fails (c : Card) : Card :=
  { c with
    sent := none
    application := false
    stage := if c.stage = .transfer then .transfer else .failed }

def Card.completes (c : Card) (index : Nat) : Card :=
  match index with
  | 2 => { c with sent := none, stage := .identified }
  | 7 => { c with sent := none, stage := .transfer }
  | 55 => { c with sent := none, application := true }
  | 6 => { c with sent := none, application := false, wide := true }
  | _ => { c with sent := none, application := false, answered := some index }

/-- The bits of the status register that report an error. -/
def errors : List Nat := [cto, ccrc, cie, dto, dcrc, deb, cerr]

/-- What is read from the status register. `CMD0` has no response that could be wrong. -/
def Card.observe (c : Card) (status : Nat) : Card :=
  match c.sent with
  | none => c
  | some .stream => if status.testBit cc then { c with sent := none } else c
  | some (.command 0) => if status.testBit cc then { c with sent := none, stage := .idle } else c
  | some (.command index) =>
    if errors.any status.testBit then c.fails
    else if status.testBit cc then c.completes index
    else c

/-- What is read from the response register. The card is operable when it repeats the bits of the
check pattern and accepts the voltage. -/
def Card.respond (c : Card) (reply : Nat) : Card :=
  match c.answered with
  | some 8 => { c with
      answered := none
      stage := if reply &&& 0xaa = 0xaa ∧ reply.testBit 8 then .operable else .failed }
  | some 41 => { c with
      answered := none
      stage := if reply = minusOne then .failed
        else if reply.testBit 31 then .ready
        else .operable }
  | some 3 => { c with answered := none, stage := .standby, rca := reply / 2 ^ 16 % 2 ^ 16 }
  | _ => c

/-- The bus is four bits wide if the card has agreed to it, and interrupts are enabled when it has
been selected. -/
def Card.step (c : Card) : Access → Option Card
  | .read register value =>
    some (if register = stat then c.observe value
      else if register = rsp10 then c.respond value
      else if register = hctl then { c with control := value }
      else c)
  | .write register value =>
    if register = cmd then c.send value
    else if register = ise then
      if c.stage = .transfer ∧ c.sent = none then some { c with interrupts := true } else none
    else if register = hctl then
      if value.testBit dtw = false ∨ c.control.testBit dtw = true ∨ c.wide = true then some c
      else none
    else some (if register = stat then { c with cleared := value == 0xffffffff }
      else if register = con then { c with stream := value.testBit init }
      else if register = arg then { c with argument := value }
      else if register = sysctl then { c with clock := value.testBit cen }
      else c)

def protocol : Monitor Card := ⟨.start, Card.step⟩

/-! ## Accesses -/

variable {c : Card} {memory : Memory} {value : Nat}

theorem step_read_stat : protocol.step c (.read stat value) = some (c.observe value) := rfl

theorem step_read_rsp10 : protocol.step c (.read rsp10 value) = some (c.respond value) := rfl

theorem step_read_hctl : protocol.step c (.read hctl value) = some { c with control := value } :=
  rfl

theorem step_write_cmd : protocol.step c (.write cmd value) = c.send value := rfl

theorem step_write_con : protocol.step c (.write con value) =
    some { c with stream := value.testBit init } := rfl

theorem step_write_arg : protocol.step c (.write arg value) = some { c with argument := value } :=
  rfl

theorem step_write_sysctl : protocol.step c (.write sysctl value) =
    some { c with clock := value.testBit cen } := rfl

/-- The registers that the monitor does not look at. -/
def Unwatched (register : Nat) : Prop :=
  register ∉ [stat, con, arg, cmd, rsp10, hctl, sysctl, ise]
  deriving Decidable

theorem step_unwatched {access : Access} {register : Nat} (h : Unwatched register)
    (haccess : access = .read register value ∨ access = .write register value) :
    protocol.step c access = some c := by
  simp only [Unwatched, List.mem_cons, List.not_mem_nil, or_false, not_or] at h
  obtain ⟨hstat, hcon, harg, hcmd, hrsp10, hhctl, hsysctl, hise⟩ := h
  obtain rfl | rfl := haccess <;>
    simp only [protocol, Card.step, hstat, hcon, harg, hcmd, hrsp10, hhctl, hsysctl, hise, if_false]

theorem step_read_sysctl : protocol.step c (.read sysctl value) = some c := rfl

theorem step_read_con : protocol.step c (.read con value) = some c := rfl

/-! ## Polling -/

/-- The driver and the card are in these states. -/
def Are (memory : Memory) (c : Card) (memory' : Memory) (c' : Card) : Prop :=
  memory' = memory ∧ c' = c

variable {α : Type} {m : SdDriver α} {P : Memory → Card → Prop} {Q : α → Memory → Card → Prop}

theorem triple_are (h : ∀ memory c, P memory c → Triple protocol (Are memory c) m Q) :
    Triple protocol P m Q :=
  fun s c hc hp => h s.memory c hp s c hc ⟨rfl, rfl⟩

theorem write_spec {register : Nat} {c' : Card}
    (h : protocol.step c (.write register value) = some c') :
    Triple protocol (Are memory c) (write register value) fun _ => Are memory c' := by
  refine Bus.triple_write ?_
  rintro _ _ ⟨rfl, rfl⟩
  exact ⟨c', h, rfl, rfl⟩

theorem waitForBit_spec {register bit : Nat} {c' : Card}
    (hstays : ∀ value, value.testBit bit = false → protocol.step c (.read register value) = some c)
    (hends : ∀ value, value.testBit bit = true →
      protocol.step c (.read register value) = some c') :
    Triple protocol (Are memory c) (waitForBit register bit) fun _ => Are memory c' := by
  refine Bus.triple_loop (Bus.Triple.bind (Q := fun value memory' q => memory' = memory ∧
    q = if value.testBit bit then c' else c) ?_ fun value => ?_)
  · refine Bus.triple_read ?_
    rintro _ _ value ⟨rfl, rfl⟩
    cases hbit : value.testBit bit with
    | true => exact ⟨c', hends value hbit, rfl, rfl⟩
    | false => exact ⟨_, hstays value hbit, rfl, rfl⟩
  · refine Bus.triple_pure ?_
    rintro _ _ ⟨rfl, rfl⟩
    cases value.testBit bit <;> exact ⟨rfl, rfl⟩

theorem statusOf_error {status : Nat} (h : errors.any status.testBit = true) :
    ∃ e, statusOf status = some e ∧ e ≠ .commandComplete := by
  simp only [errors, List.any_cons, List.any_nil, Bool.or_false, Bool.or_eq_true] at h
  unfold statusOf
  split_ifs
  iterate 7 exact ⟨_, rfl, nofun⟩
  all_goals simp_all

theorem statusOf_good {status : Nat} (h : errors.any status.testBit = false) :
    statusOf status = if status.testBit cc then some .commandComplete else none := by
  simp only [errors, List.any_cons, List.any_nil, Bool.or_false, Bool.or_eq_false_iff] at h
  unfold statusOf
  simp [h]

/-- A command that is in progress fails or is completed. -/
theorem waitForStatus_spec {index : Nat} (hsent : c.sent = some (.command index)) (h0 : index ≠ 0) :
    Triple protocol (Are memory c) waitForStatus fun status => Are memory
      (if status = .commandComplete then c.completes index else c.fails) := by
  have hobserve : ∀ status, c.observe status = if errors.any status.testBit then c.fails
      else if status.testBit cc then c.completes index else c := by
    intro status
    rw [Card.observe, hsent]
    obtain ⟨index, rfl⟩ := Nat.exists_eq_succ_of_ne_zero h0
    rfl
  refine Bus.triple_loop (Bus.Triple.bind (Q := fun status memory' q => memory' = memory ∧
    q = c.observe status) ?_ fun status => ?_)
  · refine Bus.triple_read ?_
    rintro _ _ status ⟨rfl, rfl⟩
    exact ⟨_, step_read_stat, rfl, rfl⟩
  · refine Bus.triple_pure ?_
    rintro _ _ ⟨rfl, rfl⟩
    rw [hobserve]
    cases herror : errors.any status.testBit with
    | true =>
      obtain ⟨e, he, hne⟩ := statusOf_error herror
      rw [he]
      refine ⟨rfl, ?_⟩
      rw [if_pos rfl, if_neg hne]
    | false =>
      rw [statusOf_good herror]
      cases hcc : status.testBit cc <;> exact ⟨rfl, rfl⟩

/-! ## Commands -/

/-- Nothing is in progress, and commands can be sent. -/
structure Quiet (c : Card) : Prop where
  sent : c.sent = none
  answered : c.answered = none
  stream : c.stream = false
  clock : c.clock = true

/-- The card after a command has been sent. -/
def Card.sends (c : Card) (argument index : Nat) : Card :=
  { c with argument, cleared := false, sent := some (.command index) }

theorem sends_of_quiet {argument word : Nat} (hquiet : Quiet c)
    (hallows : ({ c with argument } : Card).Allows (word >>> indx))
    (htype : word >>> rspType % 4 = responseType (word >>> indx)) :
    Card.send { c with cleared := true, argument } word = some (c.sends argument (word >>> indx)) := by
  obtain ⟨hsent, hanswered, hstream, hclock⟩ := hquiet
  have hallows' : Card.Allows { c with cleared := true, argument } (word >>> indx) := by
    unfold Card.Allows at hallows ⊢
    exact hallows
  have hstream' : ¬Card.stream { c with cleared := true, argument } = true := by
    show ¬c.stream = true
    rw [hstream]
    exact Bool.false_ne_true
  rw [Card.send, if_pos ⟨hsent, hanswered, rfl, hclock⟩, if_neg hstream',
    if_pos ⟨hallows', htype⟩]
  rfl

theorem send_spec {enabled argument word : Nat} (hquiet : Quiet c)
    (hallows : ({ c with argument } : Card).Allows (word >>> indx))
    (htype : word >>> rspType % 4 = responseType (word >>> indx)) :
    Triple protocol (Are memory c) (send enabled argument word) fun _ =>
      Are memory (c.sends argument (word >>> indx)) := by
  have hclear : protocol.step c (.write stat 0xffffffff) = some { c with cleared := true } := rfl
  refine (write_spec hclear).bind fun _ => ?_
  refine (write_spec (step_unwatched (by decide) (.inr rfl))).bind fun _ => ?_
  refine (write_spec step_write_arg).bind fun _ => ?_
  exact write_spec (@sends_of_quiet c argument word hquiet hallows htype)

theorem sendCommand_spec {enabled argument word : Nat} (hquiet : Quiet c)
    (hallows : ({ c with argument } : Card).Allows (word >>> indx))
    (htype : word >>> rspType % 4 = responseType (word >>> indx)) (h0 : word >>> indx ≠ 0) :
    Triple protocol (Are memory c) (sendCommand enabled argument word) fun b => Are memory
      (if b then (c.sends argument (word >>> indx)).completes (word >>> indx)
        else (c.sends argument (word >>> indx)).fails) := by
  refine (send_spec hquiet hallows htype).bind fun _ => ?_
  refine (waitForStatus_spec rfl h0).bind fun status => Bus.triple_pure ?_
  rintro _ _ ⟨rfl, rfl⟩
  refine ⟨rfl, ?_⟩
  by_cases hstatus : status = .commandComplete <;> simp [hstatus]

end WagtailSdCard
