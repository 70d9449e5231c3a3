import Wagtail.BlockDevice
import Wagtail.Library.Runs

/-!
# Interrupts that report an error

`sd::send_cmd17` enables the interrupts for four error conditions, and the
interrupt handler has no branch for any of them. An interrupt that reports only
an error leaves the driver as it is, and the thread behind the operation waits on.
-/
namespace WagtailBlockDevice

open Runs (Run Guarded)
open WagtailSd

variable {sd : Sd} {s t : System} {o status : Nat} {e : Event}

/-- The bits of the error conditions among those that `send_cmd17` enables. -/
def errorBits : List Nat := [cto, dto, dcrc, deb]

/-- The status reports an error and none of the events that the handler looks for. -/
structure Erroneous (status : Nat) : Prop where
  error : ∃ i ∈ errorBits, status.testBit i = true
  brr : status.testBit brr = false
  tc : status.testBit tc = false
  cc : status.testBit cc = false

/-! ## What an error should lead to -/

/-- The errors in the status have been acknowledged between the two states. -/
def Acknowledged (sd sd' : Sd) (status : Nat) : Prop :=
  ∃ masks, sd'.acknowledged = sd.acknowledged ++ masks ∧
    ∀ i ∈ errorBits, status.testBit i = true → ∃ mask ∈ masks, mask.testBit i = true

/-- The operation is still active, and its next block has been asked for again. -/
def Reissued (sd sd' : Sd) : Prop :=
  ∃ op, sd.op sd.activeRead = some op ∧ sd'.activeRead = sd.activeRead ∧
    sd'.commands = (sendCmd17 sd (Word.wrap (op.address + op.blocksRead))).commands

/-- The operation has been completed as failed, and the next one of the queue started. -/
def FailedOver (sd sd' : Sd) : Prop :=
  ∃ failed started, complete sd sd.activeRead .failed = some failed ∧
    initiateNextRead { failed with activeRead := 0 } = some started ∧
    sd'.op = started.op ∧ sd'.activeRead = started.activeRead ∧
    sd'.readQueue = started.readQueue ∧ sd'.commands = started.commands

/-- The error has been dealt with. -/
def Recovered (sd sd' : Sd) (status : Nat) : Prop :=
  Acknowledged sd sd' status ∧ (Reissued sd sd' ∨ FailedOver sd sd')

/-! ## What the handler does -/

theorem irqHandler_erroneous (hactive : sd.activeRead ≠ 0) (h : Erroneous status)
    (fifo : List Nat) : irqHandler sd 83 status fifo = some sd := by
  simp [irqHandler, hactive, h.brr, h.tc, h.cc]

theorem not_acknowledged (sd : Sd) (h : Erroneous status) : ¬ Acknowledged sd sd status := by
  rintro ⟨masks, hmasks, hall⟩
  obtain ⟨i, hi, hbit⟩ := h.error
  obtain ⟨mask, hmask, -⟩ := hall i hi hbit
  rw [List.self_eq_append_right.mp hmasks] at hmask
  cases hmask

/-- An interrupt that reports an error during a read is never dealt with: the handler returns
with the driver unchanged. -/
theorem irqHandler_not_recovered (hactive : sd.activeRead ≠ 0) (h : Erroneous status)
    (fifo : List Nat) :
    irqHandler sd 83 status fifo = some sd ∧ ¬ Recovered sd sd status :=
  ⟨irqHandler_erroneous hactive h fifo, fun hr => not_acknowledged sd h hr.1⟩

/-! ## The thread behind the operation -/

/-- The operation is being read, and its thread polls it. -/
structure Stuck (s : System) (o : Nat) : Prop where
  nonnull : o ≠ 0
  active : s.sd.activeRead = o
  incomplete : ∃ op, s.sd.op o = some op ∧ op.stat = .incomplete
  polls : s.waiter o = some .poll

/-- Whatever the threads do, the device reports errors only. -/
def Event.Failing : Event → Prop
  | .interrupt irq status _ => irq = 83 → Erroneous status
  | _ => True

/-- A step of another thread that leaves the operation alone. -/
theorem Stuck.goto {o' : Nat} {sd : Sd} (h : Stuck s o) (hne : o' ≠ o) (pc : Pc)
    (hactive : sd.activeRead = s.sd.activeRead) (hop : sd.op o = s.sd.op o) :
    Stuck (s.goto o' pc sd) o := by
  refine ⟨h.nonnull, hactive.trans h.active, ?_, ?_⟩
  · change ∃ op, sd.op o = some op ∧ op.stat = .incomplete
    rw [hop]
    exact h.incomplete
  · change Function.update s.waiter o' (some pc) o = some .poll
    rw [Function.update_of_ne hne.symm]
    exact h.polls

theorem Stuck.other {o' : Nat} {pc : Pc} (h : Stuck s o) (hw : s.waiter o' = some pc)
    (hpc : pc ≠ .poll) : o' ≠ o := by
  rintro rfl
  rw [h.polls] at hw
  exact hpc (Option.some.inj hw).symm

theorem Stuck.advance {o' : Nat} (h : Stuck s o) (hstep : step s (.advance o') = some t) :
    Stuck t o := by
  simp only [step] at hstep
  split at hstep
  next hw =>
    have hne := h.other hw (by decide)
    obtain ⟨sd', hsd', rfl⟩ := Option.map_eq_some_iff.mp hstep
    obtain ⟨op, -, rfl⟩ := Option.map_eq_some_iff.mp hsd'
    exact h.goto hne _ rfl (Function.update_of_ne hne.symm _ _)
  next hw =>
    obtain rfl := Option.some.inj hstep
    exact h.goto (h.other hw (by decide)) _ rfl rfl
  next hw =>
    obtain ⟨sd', hsd', rfl⟩ := Option.map_eq_some_iff.mp hstep
    rw [initiateIfIdle, if_neg (h.active ▸ h.nonnull)] at hsd'
    obtain rfl := Option.some.inj hsd'
    exact h.goto (h.other hw (by decide)) _ rfl rfl
  next hw =>
    have hne := h.other hw (by decide)
    obtain rfl := Option.some.inj hstep
    exact h.goto hne _ rfl (Function.update_of_ne hne.symm _ _)
  next => cases hstep

theorem Stuck.poll {o' : Nat} {stat : Status} (h : Stuck s o)
    (hstep : step s (.poll o' stat) = some t) : Stuck t o := by
  simp only [step, Option.ite_none_right_eq_some, Option.some_inj] at hstep
  obtain ⟨⟨-, hstat⟩, rfl⟩ := hstep
  by_cases ho : o' = o
  · subst ho
    obtain ⟨op, hop, hincomplete⟩ := h.incomplete
    have hwaiting : Waiting stat := .inr ((hstat op hop).symm.trans hincomplete)
    refine ⟨h.nonnull, h.active, h.incomplete, ?_⟩
    simp [System.goto, hwaiting]
  · exact h.goto ho _ rfl rfl

theorem Stuck.step (h : Stuck s o) (he : e.Failing) (hstep : Step s e t) : Stuck t o := by
  cases e with
  | issue o' request =>
    simp only [Step, WagtailBlockDevice.step, Option.ite_none_right_eq_some, Option.some_inj]
      at hstep
    obtain ⟨⟨-, hfresh⟩, rfl⟩ := hstep
    have hne : o' ≠ o := by
      rintro rfl
      rw [h.polls] at hfresh
      cases hfresh
    exact h.goto hne _ rfl (Function.update_of_ne hne.symm _ _)
  | advance o' => exact h.advance hstep
  | poll o' stat => exact h.poll hstep
  | interrupt irq status fifo =>
    obtain ⟨sd', hsd', rfl⟩ := Option.map_eq_some_iff.mp hstep
    have hsame : sd' = s.sd := by
      by_cases hirq : irq = 83
      · rw [hirq, irqHandler_erroneous (h.active ▸ h.nonnull) (he hirq)] at hsd'
        exact (Option.some.inj hsd').symm
      · rw [irqHandler, if_pos hirq] at hsd'
        exact (Option.some.inj hsd').symm
    exact ⟨h.nonnull, hsame ▸ h.active, hsame ▸ h.incomplete, h.polls⟩

/-- As long as the device reports errors only, the thread goes on polling and no other operation
is started. -/
theorem run_stuck {es : List Event} (h : Stuck s o)
    (hrun : Run (Guarded (fun _ e => e.Failing) Step) s es t) : Stuck t o :=
  hrun.invariant (I := fun u => Stuck u o) h fun _ _ _ hstuck hstep => hstuck.step hstep.1 hstep.2

/-! ## A data timeout -/

/-- A sector is asked for, and its thread has begun to wait. -/
def sectorAsked : System :=
  ([.issue 1 (.readBlock 0x81400000 0), .advance 1, .advance 1, .advance 1].foldlM step
    .initial).get (by decide +kernel)

theorem timeout_erroneous : Erroneous (bits [dto]) := ⟨⟨dto, by decide, by decide⟩, rfl, rfl, rfl⟩

theorem timeout_ignored : irqHandler sectorAsked.sd 83 (bits [dto]) [] = some sectorAsked.sd :=
  (irqHandler_not_recovered (by decide +kernel) timeout_erroneous []).1

/-- The card does not deliver the sector: nothing is done about it, and the thread polls. -/
theorem timeout_stuck :
    irqHandler sectorAsked.sd 83 (bits [dto]) [] = some sectorAsked.sd ∧
      sectorAsked.sd.activeRead = 1 ∧ sectorAsked.waiter 1 = some .poll ∧
      ¬ Recovered sectorAsked.sd sectorAsked.sd (bits [dto]) :=
  ⟨irqHandler_erroneous (by decide +kernel) timeout_erroneous [], by decide +kernel,
    by decide +kernel, fun h => not_acknowledged sectorAsked.sd timeout_erroneous h.1⟩

end WagtailBlockDevice
