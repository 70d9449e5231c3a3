import Wagtail.SdProtocol

/-!
# The initialization keeps to the protocol

Each command takes the card from one stage to the next, or ends the initialization, and
the loop around `ACMD41` stays where it is as long as the card is busy.
-/
namespace WagtailSdCard

open Bus (Access Driver Monitor Triple read write loop)
open WagtailSd (cc tc brr cto dto dcrc deb ddir rspType ccce dp indx bits)

variable {α : Type} {m : SdDriver α} {P : Memory → Card → Prop} {Q : α → Memory → Card → Prop}
  {c : Card} {memory : Memory} {stage : Stage} {application : Bool}

/-! ## Stages -/

/-- The card stands at a stage, and nothing is in progress. -/
structure Stands (stage : Stage) (application : Bool) (memory : Memory) (c : Card) : Prop extends
    Quiet c where
  stage : c.stage = stage
  rca : c.rca = memory.rca
  application : c.application = application
  interrupts : c.interrupts = false

/-- The initialization has failed. -/
structure Over (c : Card) : Prop where
  stage : c.stage = .failed
  interrupts : c.interrupts = false

/-- A command that has been completed leaves the card at this stage. -/
def Reaches (stage : Stage) (application : Bool) : Bool → Memory → Card → Prop
  | true => Stands stage application
  | false => fun _ c => Over c

theorem Stands.fails {argument index : Nat} (h : Stands stage application memory c)
    (hstage : stage ≠ .transfer) : Over (c.sends argument index).fails where
  stage := by
    show (if c.stage = .transfer then Stage.transfer else .failed) = .failed
    rw [if_neg (by rw [h.stage]; exact hstage)]
  interrupts := h.interrupts

theorem Stands.fails_transfer {argument index : Nat} (h : Stands .transfer application memory c) :
    Stands .transfer false memory (c.sends argument index).fails where
  sent := rfl
  answered := h.answered
  stream := h.stream
  clock := h.clock
  stage := if_pos h.stage
  rca := h.rca
  application := rfl
  interrupts := h.interrupts

/-- A command that is sent from a stage. -/
theorem Stands.command {Q : Bool → Memory → Card → Prop} {enabled argument word : Nat} (index : Nat)
    (h : Stands stage application memory c) (hindex : word >>> indx = index) (h0 : index ≠ 0)
    (htype : word >>> rspType % 4 = responseType index)
    (hallows : ({ c with argument } : Card).Allows index)
    (htrue : Q true memory ((c.sends argument index).completes index))
    (hfalse : Q false memory (c.sends argument index).fails) :
    Triple protocol (Are memory c) (sendCommand enabled argument word) Q := by
  subst hindex
  refine (sendCommand_spec h.toQuiet hallows htype h0).weaken (fun _ _ => id) ?_
  rintro b _ _ ⟨rfl, rfl⟩
  cases b with
  | true => exact htrue
  | false => exact hfalse

/-- The response to a command that has one. -/
def answeredCard (c : Card) (argument index : Nat) : Card :=
  { c.sends argument index with sent := none, application := false, answered := some index }

theorem readResponse {argument index : Nat} :
    Triple protocol (Are memory (answeredCard c argument index)) (read rsp10) fun reply =>
      Are memory ((answeredCard c argument index).respond reply) := by
  refine Bus.triple_read ?_
  rintro _ _ reply ⟨rfl, rfl⟩
  exact ⟨_, step_read_rsp10, rfl, rfl⟩

/-- The variables of the driver, where they are needed. -/
theorem triple_memory {P : Memory → Card → Prop} {f : Memory → SdDriver α}
    (h : ∀ memory c, P memory c → Triple protocol (Are memory c) (f memory) Q) :
    Triple protocol P (Bus.get >>= f) Q := by
  refine Bus.Triple.bind (Q := fun memory memory' c => memory' = memory ∧ P memory c)
    (Bus.triple_get fun _ _ hp => ⟨rfl, hp⟩) fun memory => triple_are ?_
  rintro _ c ⟨rfl, hp⟩
  exact h _ c hp

/-! ## Commands -/

theorem sendCmd2_spec :
    Triple protocol (Stands .ready false) sendCmd2 (Reaches .identified false) :=
  triple_are fun _ _ h => h.command 2 rfl (by decide) rfl ⟨h.stage, rfl⟩
    ⟨⟨rfl, h.answered, h.stream, h.clock⟩, rfl, h.rca, h.application, h.interrupts⟩
    (h.fails nofun)

theorem sendCmd3_spec :
    Triple protocol (Stands .identified false) sendCmd3 (Reaches .standby false) := by
  refine triple_are fun memory c h => ?_
  have hcommand : Triple protocol (Are memory c)
      (sendCommand (bits [cc, cto]) 0 (3 <<< indx ||| 0x2 <<< rspType))
      fun b memory' c' => match b with
        | true => Are memory (answeredCard c 0 3) memory' c'
        | false => Over c' :=
    h.command 3 rfl (by decide) rfl ⟨h.stage, rfl⟩ ⟨rfl, rfl⟩ (h.fails nofun)
  refine hcommand.bind fun b => ?_
  cases b with
  | false => exact Bus.triple_pure fun _ _ hover => hover
  | true =>
    refine readResponse.bind fun reply => ?_
    refine Bus.Triple.bind (Q := fun _ => Stands .standby false) (Bus.triple_set ?_) fun _ =>
      Bus.triple_pure fun _ _ hstands => hstands
    rintro _ _ ⟨rfl, rfl⟩
    exact ⟨⟨rfl, rfl, h.stream, h.clock⟩, rfl, rfl, rfl, h.interrupts⟩

theorem sendCmd7_spec :
    Triple protocol (Stands .standby false) sendCmd7 (Reaches .transfer false) :=
  triple_memory fun memory _ h => h.command 7 rfl (by decide) rfl
    ⟨h.stage, congrArg (· <<< 16) h.rca.symm⟩
    ⟨⟨rfl, h.answered, h.stream, h.clock⟩, rfl, h.rca, h.application, h.interrupts⟩
    (h.fails nofun)

theorem sendCmd8_spec :
    Triple protocol (Stands .idle false) sendCmd8 (Reaches .operable false) := by
  refine triple_are fun memory c h => ?_
  have hcommand : Triple protocol (Are memory c)
      (sendCommand (bits [cc, cto]) (1 <<< 8 ||| 0xaa) (8 <<< indx ||| 0x2 <<< rspType))
      fun b memory' c' => match b with
        | true => Are memory (answeredCard c (1 <<< 8 ||| 0xaa) 8) memory' c'
        | false => Over c' :=
    h.command 8 rfl (by decide) rfl ⟨h.stage, rfl⟩ ⟨rfl, rfl⟩ (h.fails nofun)
  refine hcommand.bind fun b => ?_
  cases b with
  | false => exact Bus.triple_pure fun _ _ hover => hover
  | true =>
    refine readResponse.bind fun reply => ?_
    have hstage : ∀ stage', (if reply &&& 0xaa = 0xaa ∧ reply.testBit 8 = true then Stage.operable
        else .failed) = stage' → ((answeredCard c (1 <<< 8 ||| 0xaa) 8).respond reply).stage =
          stage' := fun _ h => h
    by_cases hpattern : reply &&& 0xaa = 0xaa
    · rw [if_neg (not_not.mpr hpattern)]
      refine Bus.triple_pure ?_
      rintro _ _ ⟨rfl, rfl⟩
      cases hvoltage : reply.testBit 8 with
      | true =>
        exact ⟨⟨rfl, rfl, h.stream, h.clock⟩, hstage _ (if_pos ⟨hpattern, hvoltage⟩), h.rca, rfl,
          h.interrupts⟩
      | false =>
        refine ⟨hstage _ (if_neg fun hboth => ?_), h.interrupts⟩
        rw [hvoltage] at hboth
        exact Bool.false_ne_true hboth.2
    · rw [if_pos hpattern]
      refine Bus.triple_pure ?_
      rintro _ _ ⟨rfl, rfl⟩
      exact ⟨hstage _ (if_neg fun hboth => hpattern hboth.1), h.interrupts⟩

/-- `CMD55` before the card has been selected. -/
theorem sendCmd55_spec :
    Triple protocol (Stands .operable false) sendCmd55 (Reaches .operable true) :=
  triple_memory fun memory _ h => h.command 55 rfl (by decide) rfl
    ⟨.inl h.stage, h.application, congrArg (· <<< 16) h.rca.symm⟩
    ⟨⟨rfl, h.answered, h.stream, h.clock⟩, h.stage, h.rca, rfl, h.interrupts⟩
    (h.fails nofun)

/-- Behind the selection, a command that fails leaves the card where it is. -/
theorem sendCmd55_transfer_spec :
    Triple protocol (Stands .transfer false) sendCmd55 fun b => Stands .transfer b :=
  triple_memory fun memory _ h => h.command 55 rfl (by decide) rfl
    ⟨.inr h.stage, h.application, congrArg (· <<< 16) h.rca.symm⟩
    ⟨⟨rfl, h.answered, h.stream, h.clock⟩, h.stage, h.rca, rfl, h.interrupts⟩
    h.fails_transfer

theorem sendAcmd6_spec : Triple protocol (Stands .transfer false) sendAcmd6 fun b memory c =>
    Stands .transfer false memory c ∧ (b = true → c.wide = true) := by
  refine sendCmd55_transfer_spec.bind fun b => ?_
  cases b with
  | false => exact Bus.triple_pure fun _ _ h => ⟨h, nofun⟩
  | true =>
    exact triple_are fun _ _ h => h.command 6 rfl (by decide) rfl ⟨h.stage, h.application, rfl⟩
      ⟨⟨⟨rfl, h.answered, h.stream, h.clock⟩, h.stage, h.rca, rfl, h.interrupts⟩, fun _ => rfl⟩
      ⟨h.fails_transfer, nofun⟩

theorem sendAcmd41_spec : Triple protocol (Stands .operable false) sendAcmd41
    fun result memory c => match goesOn result with
      | some true => Stands .ready false memory c
      | some false => Over c
      | none => Stands .operable false memory c := by
  refine sendCmd55_spec.bind fun b => ?_
  cases b with
  | false => exact Bus.triple_pure fun _ _ hover => hover
  | true =>
    refine triple_are fun memory c h => ?_
    have hcommand : Triple protocol (Are memory c)
        (sendCommand (bits [cc, cto]) (1 <<< 30 ||| 1 <<< 28 ||| 1 <<< 18 ||| 1 <<< 17)
          (41 <<< indx ||| 0x2 <<< rspType))
        fun b memory' c' => match b with
          | true => Are memory (answeredCard c 0x50060000 41) memory' c'
          | false => Over c' :=
      h.command 41 rfl (by decide) rfl ⟨h.stage, h.application, rfl⟩ ⟨rfl, rfl⟩ (h.fails nofun)
    refine hcommand.bind fun b => ?_
    cases b with
    | false => exact Bus.triple_pure fun _ _ hover => hover
    | true =>
      refine readResponse.weaken (fun _ _ => id) ?_
      rintro reply _ _ ⟨rfl, rfl⟩
      have hstage : ∀ stage', (if reply = minusOne then Stage.failed
          else if reply.testBit 31 = true then .ready else .operable) = stage' →
            ((answeredCard c 0x50060000 41).respond reply).stage = stage' := fun _ h => h
      rw [goesOn]
      by_cases herror : reply = minusOne
      · rw [if_pos herror]
        exact ⟨hstage _ (if_pos herror), h.interrupts⟩
      · rw [if_neg herror] at hstage ⊢
        cases hready : reply.testBit 31 with
        | true =>
          exact ⟨⟨rfl, rfl, h.stream, h.clock⟩, hstage _ (if_pos hready), h.rca, rfl, h.interrupts⟩
        | false =>
          refine ⟨⟨rfl, rfl, h.stream, h.clock⟩, hstage _ (if_neg ?_), h.rca, rfl, h.interrupts⟩
          rw [hready]
          exact Bool.false_ne_true

/-- The card stays operable while it is busy. -/
theorem waitWhileBusy_spec :
    Triple protocol (Stands .operable false) waitWhileBusy (Reaches .ready false) := by
  refine Bus.triple_loop (sendAcmd41_spec.bind fun result => Bus.triple_pure fun memory c h => ?_)
  cases hends : goesOn result with
  | none =>
    rw [hends] at h
    exact h
  | some b =>
    rw [hends] at h
    cases b <;> exact h

/-! ## The end -/

/-- The card has been selected, interrupts are enabled, and the first block is being read. -/
structure Selected (memory : Memory) (c : Card) : Prop where
  stage : c.stage = .transfer
  rca : c.rca = memory.rca
  interrupts : c.interrupts = true
  sent : c.sent = some (.command 17)
  argument : c.argument = 0

theorem bits_testBit (value i : Nat) : (value ||| bits [i]).testBit i = true := by
  have hbit : (1 <<< i).testBit i = true := by simp
  have hbits : bits [i] = 1 <<< i := Nat.zero_or _
  rw [Nat.testBit_or, hbits, hbit, Bool.or_true]

theorem orRegister_hctl {data : Nat}
    (h : data.testBit dtw = false ∨ c.wide = true) :
    Triple protocol (Are memory c) (orRegister data hctl) fun _ memory' c' =>
      memory' = memory ∧ ∃ control, c' = { c with control } := by
  refine Bus.Triple.bind (Q := fun temp => Are memory { c with control := temp })
    (Bus.triple_read ?_) fun temp => Bus.triple_write ?_
  · rintro _ _ temp ⟨rfl, rfl⟩
    exact ⟨_, step_read_hctl, rfl, rfl⟩
  · rintro _ _ ⟨rfl, rfl⟩
    refine ⟨_, if_pos ?_, rfl, temp, rfl⟩
    obtain hdata | hwide := h
    · show (temp ||| data).testBit dtw = false ∨ temp.testBit dtw = true ∨ _
      rw [Nat.testBit_or, hdata, Bool.or_false]
      cases temp.testBit dtw with
      | false => exact .inl rfl
      | true => exact .inr (.inl rfl)
    · exact .inr (.inr hwide)

theorem widenBus_spec :
    Triple protocol (Stands .transfer false) widenBus fun _ => Stands .transfer false := by
  refine sendAcmd6_spec.bind fun b => ?_
  cases b with
  | false => exact Bus.triple_pure fun _ _ h => h.1
  | true =>
    refine triple_are fun memory c ⟨h, hwide⟩ => ?_
    refine (orRegister_hctl (.inr (hwide rfl))).weaken (fun _ _ => id) ?_
    rintro _ _ _ ⟨rfl, control, rfl⟩
    exact ⟨⟨h.sent, h.answered, h.stream, h.clock⟩, h.stage, h.rca, h.application, h.interrupts⟩

theorem finishCard_spec :
    Triple protocol (Stands .transfer false) finishCard fun _ => Selected := by
  refine widenBus_spec.bind fun _ => triple_are fun memory c h => ?_
  have hclear : protocol.step c (.write stat 0xffffffff) = some { c with cleared := true } := rfl
  refine (write_spec hclear).bind fun _ => ?_
  have hise : protocol.step { c with cleared := true } (.write ise 0xffffffff) =
      some { c with cleared := true, interrupts := true } := if_pos ⟨h.stage, h.sent⟩
  refine (write_spec hise).bind fun _ => ?_
  refine (write_spec (step_unwatched (by decide) (.inr rfl))).bind fun _ => ?_
  refine (write_spec step_write_arg).bind fun _ => ?_
  have hquiet : Quiet { c with interrupts := true } := ⟨h.sent, h.answered, h.stream, h.clock⟩
  have hsend : protocol.step { c with cleared := true, interrupts := true, argument := 0 }
      (.write cmd (17 <<< indx ||| 0x2 <<< rspType ||| bits [dp, ccce, ddir])) =
        some (Card.sends { c with interrupts := true } 0 17) :=
    sends_of_quiet hquiet ⟨h.stage, h.application, rfl⟩ rfl
  refine (write_spec hsend).weaken (fun _ _ => id) ?_
  rintro _ _ _ ⟨rfl, rfl⟩
  exact ⟨h.stage, h.rca, rfl, rfl, rfl⟩

/-- How the initialization of a card ends. -/
def Ends (memory : Memory) (c : Card) : Prop := Over c ∨ Selected memory c

/-- A command, and what follows if it has been completed. -/
theorem Triple.orOver {next : SdDriver Unit} {m : SdDriver Bool} {P : Memory → Card → Prop}
    (hm : Triple protocol P m (Reaches stage application))
    (hnext : Triple protocol (Stands stage application) next fun _ => Ends) :
    Triple protocol P (m >>= fun b => if b then next else pure ()) fun _ => Ends := by
  refine hm.bind fun b => ?_
  cases b with
  | true => exact hnext
  | false => exact Bus.triple_pure fun _ _ hover => .inl hover

theorem afterCmd0_spec : Triple protocol (Stands .idle false) (do
    if ← sendCmd8 then
      if ← waitWhileBusy then
        if ← sendCmd2 then
          if ← sendCmd3 then
            if ← sendCmd7 then finishCard
            else pure ()
          else pure ()
        else pure ()
      else pure ()
    else pure ()) fun _ => Ends :=
  Triple.orOver sendCmd8_spec <| Triple.orOver waitWhileBusy_spec <|
    Triple.orOver sendCmd2_spec <| Triple.orOver sendCmd3_spec <|
      Triple.orOver sendCmd7_spec <| finishCard_spec.weaken (fun _ _ => id) fun _ _ _ => .inr

/-! ## The beginning -/

/-- Nothing has been sent. -/
structure Starts (stream : Bool) (memory : Memory) (c : Card) : Prop where
  stage : c.stage = .reset
  rca : c.rca = memory.rca
  application : c.application = false
  sent : c.sent = none
  answered : c.answered = none
  stream : c.stream = stream
  interrupts : c.interrupts = false

/-- A register whose value changes nothing that matters. -/
theorem waitForBit_keeps {register bit : Nat} (h : ∀ memory c value, P memory c →
    ∃ c', protocol.step c (.read register value) = some c' ∧ P memory c') :
    Triple protocol P (waitForBit register bit) fun _ => P := by
  refine Bus.triple_loop (Bus.Triple.bind (Q := fun _ => P) (Bus.triple_read h) fun value =>
    Bus.triple_pure fun _ _ hp => ?_)
  cases value.testBit bit <;> exact hp

theorem orRegister_spec {register data : Nat} {P' : Memory → Card → Prop}
    (hread : ∀ memory c value, P memory c → protocol.step c (.read register value) = some c)
    (hwrite : ∀ memory c value, P memory c →
      ∃ c', protocol.step c (.write register (value ||| data)) = some c' ∧ P' memory c') :
    Triple protocol P (orRegister data register) fun _ => P' :=
  Bus.Triple.bind (Q := fun _ => P)
    (Bus.triple_read fun memory c value hp => ⟨c, hread memory c value hp, hp⟩) fun value =>
      Bus.triple_write fun memory c hp => hwrite memory c value hp

theorem andRegister_spec {register data : Nat} {P' : Memory → Card → Prop}
    (hread : ∀ memory c value, P memory c → protocol.step c (.read register value) = some c)
    (hwrite : ∀ memory c value, P memory c →
      ∃ c', protocol.step c (.write register (value &&& data)) = some c' ∧ P' memory c') :
    Triple protocol P (andRegister data register) fun _ => P' :=
  Bus.Triple.bind (Q := fun _ => P)
    (Bus.triple_read fun memory c value hp => ⟨c, hread memory c value hp, hp⟩) fun value =>
      Bus.triple_write fun memory c hp => hwrite memory c value hp

theorem Starts.clocked {stream : Bool} (h : Starts stream memory c) (clock : Bool) :
    Starts stream memory { c with clock } :=
  ⟨h.stage, h.rca, h.application, h.sent, h.answered, h.stream, h.interrupts⟩

/-- The clock of the bus is on. -/
def Clocked (stream : Bool) (memory : Memory) (c : Card) : Prop :=
  Starts stream memory c ∧ c.clock = true

theorem clockOn_spec {stream : Bool} : Triple protocol (Starts stream)
    (orRegister (bits [cen]) sysctl) fun _ => Clocked stream :=
  orRegister_spec (fun _ _ _ _ => step_read_sysctl) fun _ c value h =>
    ⟨{ c with clock := true }, by rw [step_write_sysctl, bits_testBit], h.clocked true, rfl⟩

theorem sysctl_keeps {stream : Bool} {value : Nat} (h : Starts stream memory c) :
    ∃ c', protocol.step c (.write sysctl value) = some c' ∧ Starts stream memory c' :=
  ⟨_, step_write_sysctl, h.clocked _⟩

theorem waitForIcs_spec {stream : Bool} : Triple protocol (Starts stream)
    (waitForBit sysctl ics) fun _ => Starts stream :=
  waitForBit_keeps fun _ c _ h => ⟨c, step_read_sysctl, h⟩

theorem switchClockDivider_spec {stream : Bool} (divider : Nat) : Triple protocol (Starts stream)
    (switchClockDivider divider) fun _ => Clocked stream := by
  refine Bus.Triple.bind (Q := fun _ => Starts stream)
    (Bus.triple_read fun _ c _ h => ⟨c, step_read_sysctl, h⟩) fun value => ?_
  refine Bus.Triple.bind (Q := fun _ => Starts stream)
    (Bus.triple_write fun _ _ => sysctl_keeps) fun _ => ?_
  exact waitForIcs_spec.bind fun _ => clockOn_spec

/-- The status register has been cleared. -/
def Cleared (stream : Bool) (memory : Memory) (c : Card) : Prop :=
  Clocked stream memory c ∧ c.cleared = true

theorem clear_spec {stream : Bool} : Triple protocol (Clocked stream) (write stat 0xffffffff)
    fun _ => Cleared stream :=
  Bus.triple_write fun _ c ⟨h, hclock⟩ => ⟨{ c with cleared := true }, rfl,
    ⟨⟨h.stage, h.rca, h.application, h.sent, h.answered, h.stream, h.interrupts⟩, hclock⟩, rfl⟩

theorem waitForCc_spec {c' : Card}
    (h : ∀ status, c.observe status = if status.testBit cc then c' else c) :
    Triple protocol (Are memory c) (waitForBit stat cc) fun _ => Are memory c' :=
  waitForBit_spec (fun status hcc => by rw [step_read_stat, h, hcc]; rfl)
    fun status hcc => by rw [step_read_stat, h, hcc]; rfl

/-- The stream is on its way. -/
def Streaming (memory : Memory) (c : Card) : Prop :=
  Clocked true memory { c with sent := none } ∧ c.sent = some .stream

theorem sendStream_spec (n : Nat) :
    Triple protocol (Cleared true) (sendStream n) fun _ => Cleared true := by
  induction n with
  | zero => exact Bus.triple_pure fun _ _ h => h
  | succ n ih =>
    refine Bus.Triple.bind (Q := fun _ => Streaming) (Bus.triple_write ?_) fun _ =>
      Bus.Triple.bind (Q := fun _ => Clocked true) (triple_are ?_) fun _ =>
        clear_spec.bind fun _ => ih
    · rintro memory c ⟨⟨h, hclock⟩, hcleared⟩
      refine ⟨{ c with sent := some .stream, cleared := false }, ?_,
        ⟨⟨h.stage, h.rca, h.application, rfl, h.answered, h.stream, h.interrupts⟩, hclock⟩, rfl⟩
      rw [step_write_cmd, Card.send, if_pos ⟨h.sent, h.answered, hcleared, hclock⟩,
        if_pos h.stream, if_pos rfl]
    · rintro memory c ⟨h, hsent⟩
      have hobserve : ∀ status, c.observe status =
          if status.testBit cc then { c with sent := none } else c := by
        intro status
        rw [Card.observe, hsent]
      refine (waitForCc_spec hobserve).weaken (fun _ _ => id) ?_
      rintro _ _ _ ⟨rfl, rfl⟩
      exact h

theorem sendCmd0_spec : Triple protocol (Clocked false) sendCmd0 fun _ => Stands .idle false := by
  refine triple_are fun memory c ⟨h, hclock⟩ => ?_
  have hquiet : Quiet c := ⟨h.sent, h.answered, h.stream, hclock⟩
  have hsend : Triple protocol (Are memory c) (send (bits [cc]) 0 0) fun _ =>
      Are memory (c.sends 0 0) := send_spec hquiet ⟨h.stage, rfl⟩ rfl
  refine hsend.bind fun _ => ?_
  have hobserve : ∀ status, (c.sends 0 0).observe status = if status.testBit cc then
      { c.sends 0 0 with sent := none, stage := .idle } else c.sends 0 0 := fun _ => rfl
  refine (waitForCc_spec hobserve).weaken (fun _ _ => id) ?_
  rintro _ _ _ ⟨rfl, rfl⟩
  exact ⟨⟨rfl, h.answered, h.stream, hclock⟩, rfl, h.rca, h.application, h.interrupts⟩

theorem unwatched_spec {register value : Nat} (h : Unwatched register) :
    Triple protocol P (write register value) fun _ => P :=
  Bus.triple_write fun _ c hp => ⟨c, step_unwatched h (.inr rfl), hp⟩

theorem init_cleared : (complement (bits [init])).testBit init = false := by decide

theorem initializeCard_spec :
    Triple protocol (Starts false) initializeCard fun _ => Ends := by
  refine (switchClockDivider_spec 0x3ff).bind fun _ => (unwatched_spec (by decide)).bind fun _ =>
    clear_spec.bind fun _ => ?_
  have hstreams : Triple protocol (Cleared false) (orRegister (bits [init]) con) fun _ =>
      Cleared true :=
    orRegister_spec (fun _ _ _ _ => step_read_con) fun _ c value ⟨⟨h, hclock⟩, hcleared⟩ =>
      ⟨{ c with stream := true }, by rw [step_write_con, bits_testBit],
        ⟨⟨h.stage, h.rca, h.application, h.sent, h.answered, rfl, h.interrupts⟩, hclock⟩, hcleared⟩
  have hends : Triple protocol (Cleared true) (andRegister (complement (bits [init])) con)
      fun _ => Starts false :=
    andRegister_spec (fun _ _ _ _ => step_read_con) fun _ c value ⟨⟨h, hclock⟩, hcleared⟩ =>
      ⟨{ c with stream := false }, by
        rw [step_write_con, Nat.testBit_and, init_cleared, Bool.and_false],
        h.stage, h.rca, h.application, h.sent, h.answered, rfl, h.interrupts⟩
  exact hstreams.bind fun _ => (sendStream_spec 3).bind fun _ => hends.bind fun _ =>
    (switchClockDivider_spec 240).bind fun _ => sendCmd0_spec.bind fun _ => afterCmd0_spec

theorem Starts.controlled {stream : Bool} (h : Starts stream memory c) (control : Nat) :
    Starts stream memory { c with control } :=
  ⟨h.stage, h.rca, h.application, h.sent, h.answered, h.stream, h.interrupts⟩

theorem unwatchedOr_spec {register data : Nat} (h : Unwatched register) :
    Triple protocol P (orRegister data register) fun _ => P :=
  orRegister_spec (fun _ _ _ _ => step_unwatched h (.inl rfl)) fun _ c _ hp =>
    ⟨c, step_unwatched h (.inr rfl), hp⟩

theorem initializeModule_spec :
    Triple protocol (Starts false) initializeModule fun _ => Ends := by
  have hsysctl : ∀ data, Triple protocol (Starts false) (orRegister data sysctl)
      fun _ => Starts false := fun data =>
    orRegister_spec (fun _ _ _ _ => step_read_sysctl) fun _ _ _ => sysctl_keeps
  have hsra : Triple protocol (Starts false) (waitForBit sysctl sra) fun _ => Starts false :=
    waitForBit_keeps fun _ c _ h => ⟨c, step_read_sysctl, h⟩
  have hreset : Triple protocol (Starts false) (waitForBit sysstatus resetdone)
      fun _ => Starts false :=
    waitForBit_keeps fun _ c _ h => ⟨c, step_unwatched (by decide) (.inl rfl), h⟩
  have hvoltage : Triple protocol (Starts false) (write hctl (0x6 <<< sdvs))
      fun _ => Starts false :=
    Bus.triple_write fun _ c h => ⟨c, rfl, h⟩
  have hpower : Triple protocol (Starts false) (orRegister (bits [sdbp]) hctl)
      fun _ => Starts false := by
    refine triple_are fun memory c h =>
      (orRegister_hctl (.inl (by decide))).weaken (fun _ _ => id) ?_
    rintro _ _ _ ⟨rfl, control, rfl⟩
    exact h.controlled control
  have hpowered : Triple protocol (Starts false) (waitForBit hctl sdbp) fun _ => Starts false :=
    waitForBit_keeps fun _ _ _ h => ⟨_, step_read_hctl, h.controlled _⟩
  have hdivider : Triple protocol (Starts false)
      (andRegister (complement (0x3ff <<< clkd ||| bits [cen])) sysctl) fun _ => Starts false :=
    andRegister_spec (fun _ _ _ _ => step_read_sysctl) fun _ _ _ => sysctl_keeps
  exact (unwatched_spec (by decide)).bind fun _ => hreset.bind fun _ =>
    (hsysctl _).bind fun _ => hsra.bind fun _ => (unwatchedOr_spec (by decide)).bind fun _ =>
    (unwatched_spec (by decide)).bind fun _ => hvoltage.bind fun _ => hpower.bind fun _ =>
    hpowered.bind fun _ => (hsysctl _).bind fun _ => hdivider.bind fun _ =>
    (hsysctl _).bind fun _ => waitForIcs_spec.bind fun _ => clockOn_spec.bind fun _ =>
    (unwatched_spec (by decide)).bind fun _ =>
    initializeCard_spec.weaken (fun _ _ h => h.1) fun _ _ _ => id

/-! ## Waiting -/

theorem takes_orRegister (data register : Nat) : Bus.Takes 0 (orRegister data register) :=
  (Bus.takes_read register).zero.next fun _ => Bus.takes_write _ _

theorem takes_andRegister (data register : Nat) : Bus.Takes 0 (andRegister data register) :=
  (Bus.takes_read register).zero.next fun _ => Bus.takes_write _ _

theorem takes_waitForBit (register bit : Nat) : Bus.Takes 0 (waitForBit register bit) :=
  (Bus.takes_loop ((Bus.takes_read register).bind fun _ => Bus.takes_pure _)).zero

theorem takes_send (enabled argument command : Nat) :
    Bus.Takes 0 (send enabled argument command) :=
  (Bus.takes_write _ _).next fun _ => (Bus.takes_write _ _).next fun _ =>
    (Bus.takes_write _ _).next fun _ => Bus.takes_write _ _

theorem takes_sendCommand (enabled argument command : Nat) :
    Bus.Takes 1 (sendCommand enabled argument command) :=
  ((takes_send _ _ _).bind fun _ => (Bus.takes_loop ((Bus.takes_read stat).bind fun _ =>
    Bus.takes_pure _)).bind fun _ => Bus.takes_pure _).le (by decide)

theorem takes_sendCmd3 : Bus.Takes 0 sendCmd3 :=
  (takes_sendCommand _ _ _).zero.next fun _ => Bus.takes_ite
    ((Bus.takes_read _).zero.next fun _ => (Bus.takes_set _).next fun _ => Bus.takes_pure _)
    (Bus.takes_pure _)

theorem takes_sendCmd7 : Bus.Takes 0 sendCmd7 :=
  Bus.takes_get.next fun _ => (takes_sendCommand _ _ _).zero

theorem takes_sendCmd8 : Bus.Takes 0 sendCmd8 :=
  (takes_sendCommand _ _ _).zero.next fun _ => Bus.takes_ite
    ((Bus.takes_read _).zero.next fun _ => by split_ifs <;> exact Bus.takes_pure _)
    (Bus.takes_pure _)

theorem takes_sendCmd55 : Bus.Takes 1 sendCmd55 :=
  (Bus.takes_get.bind fun _ => takes_sendCommand _ _ _).le (by decide)

theorem takes_sendAcmd6 : Bus.Takes 0 sendAcmd6 :=
  takes_sendCmd55.zero.next fun _ => Bus.takes_ite (takes_sendCommand _ _ _).zero (Bus.takes_pure _)

theorem takes_sendAcmd41 : Bus.Takes 1 sendAcmd41 :=
  takes_sendCmd55.bind fun _ => Bus.takes_ite
    ((takes_sendCommand _ _ _).zero.next fun _ =>
      Bus.takes_ite (Bus.takes_read _).zero (Bus.takes_pure _)) (Bus.takes_pure _)

theorem takes_waitWhileBusy : Bus.Takes 0 waitWhileBusy :=
  (Bus.takes_loop (takes_sendAcmd41.bind fun _ => Bus.takes_pure _)).zero

theorem takes_switchClockDivider (divider : Nat) : Bus.Takes 0 (switchClockDivider divider) :=
  (Bus.takes_read _).zero.next fun _ => (Bus.takes_write _ _).next fun _ =>
    (takes_waitForBit _ _).next fun _ => takes_orRegister _ _

theorem takes_sendStream (n : Nat) : Bus.Takes 0 (sendStream n) := by
  induction n with
  | zero => exact Bus.takes_pure _
  | succ n ih =>
    exact (Bus.takes_write _ _).next fun _ => (takes_waitForBit _ _).next fun _ =>
      (Bus.takes_write _ _).next fun _ => ih

theorem takes_finishCard : Bus.Takes 0 finishCard :=
  (takes_sendAcmd6.next fun _ => Bus.takes_ite (takes_orRegister _ _) (Bus.takes_pure _)).next
    fun _ => (Bus.takes_write _ _).next fun _ => (Bus.takes_write _ _).next fun _ =>
      (Bus.takes_write _ _).next fun _ => (Bus.takes_write _ _).next fun _ => Bus.takes_write _ _

theorem takes_initializeCard : Bus.Takes 0 initializeCard :=
  (takes_switchClockDivider _).next fun _ => (Bus.takes_write _ _).next fun _ =>
    (Bus.takes_write _ _).next fun _ => (takes_orRegister _ _).next fun _ =>
    (takes_sendStream _).next fun _ => (takes_andRegister _ _).next fun _ =>
    (takes_switchClockDivider _).next fun _ =>
    ((takes_send _ _ _).next fun _ => takes_waitForBit _ _).next fun _ =>
    takes_sendCmd8.next fun _ => Bus.takes_ite (takes_waitWhileBusy.next fun _ => Bus.takes_ite
      ((takes_sendCommand _ _ _).zero.next fun _ => Bus.takes_ite (takes_sendCmd3.next fun _ =>
        Bus.takes_ite (takes_sendCmd7.next fun _ => Bus.takes_ite takes_finishCard
          (Bus.takes_pure _)) (Bus.takes_pure _)) (Bus.takes_pure _)) (Bus.takes_pure _))
      (Bus.takes_pure _)

theorem takes_initializeModule : Bus.Takes 0 initializeModule :=
  (Bus.takes_write _ _).next fun _ => (takes_waitForBit _ _).next fun _ =>
    (takes_orRegister _ _).next fun _ => (takes_waitForBit _ _).next fun _ =>
    (takes_orRegister _ _).next fun _ => (Bus.takes_write _ _).next fun _ =>
    (Bus.takes_write _ _).next fun _ => (takes_orRegister _ _).next fun _ =>
    (takes_waitForBit _ _).next fun _ => (takes_orRegister _ _).next fun _ =>
    (takes_andRegister _ _).next fun _ => (takes_orRegister _ _).next fun _ =>
    (takes_waitForBit _ _).next fun _ => (takes_orRegister _ _).next fun _ =>
    (Bus.takes_write _ _).next fun _ => takes_initializeCard

/-- The loop of `sd::wait_for_status`, round by round. -/
theorem waitForStatus_eq : waitForStatus =
    read stat >>= fun status => (statusOf status).elim waitForStatus pure :=
  Bus.loop_pure_eq (Bus.takes_read stat) statusOf

/-- The loop around `sd::send_acmd41`. -/
theorem waitWhileBusy_eq : waitWhileBusy =
    sendAcmd41 >>= fun result => (goesOn result).elim waitWhileBusy pure :=
  Bus.loop_pure_eq takes_sendAcmd41 goesOn

/-! ## The whole initialization -/

theorem starts_start : Starts false ⟨0⟩ .start := ⟨rfl, rfl, rfl, rfl, rfl, rfl, rfl⟩

end WagtailSdCard
