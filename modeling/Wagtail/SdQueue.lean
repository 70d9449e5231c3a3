import Wagtail.Sd

/-!
# Operations in the hands of the driver

What each function of the driver leaves behind, and the invariant of the active
operation and the read queue: they are distinct live operations. Under it no
function of the driver faults.
-/
namespace WagtailSd

open Word (wrap)
open WagtailKqueue

theorem setStatus_eq (sd : Sd) {o : Nat} {op : BlockReadOperation} (hop : sd.op o = some op)
    (stat : Status) :
    setStatus sd o stat =
      some { sd with op := Function.update sd.op o (some { op with stat }) } := by
  simp [setStatus, Sd.modifyOp, hop]

/-- The state in which the front of the queue has become the active operation. -/
def started (sd : Sd) (o : Nat) (rest : List Nat) (op : BlockReadOperation) : Sd :=
  sendCmd17
    { sd with
      readQueue := ⟨rest, sd.readQueue.length - 1⟩
      op := Function.update sd.op o (some { op with stat := .incomplete })
      activeRead := o
      readAttempts := 0 } op.address

theorem initiateNextRead_nil {sd : Sd} (hq : sd.readQueue.elements = []) :
    initiateNextRead sd = some sd := by
  simp [initiateNextRead, Kqueue.popFront, hq]

theorem initiateNextRead_cons {sd : Sd} {o : Nat} {rest : List Nat} {op : BlockReadOperation}
    (hq : sd.readQueue.elements = o :: rest) (hop : sd.op o = some op) :
    initiateNextRead sd = some (started sd o rest op) := by
  have hset := setStatus_eq { sd with readQueue := ⟨rest, sd.readQueue.length - 1⟩ } hop .incomplete
  simp [initiateNextRead, Kqueue.popFront, hq, initiateRead, hset, started]

/-- Only a live operation can be started. -/
theorem initiateNextRead_cases {sd sd' : Sd} (h : initiateNextRead sd = some sd') :
    (sd.readQueue.elements = [] ∧ sd' = sd) ∨
    ∃ o rest op, sd.readQueue.elements = o :: rest ∧ sd.op o = some op ∧
      sd' = started sd o rest op := by
  cases hq : sd.readQueue.elements with
  | nil =>
    rw [initiateNextRead_nil hq] at h
    exact .inl ⟨rfl, (Option.some.inj h).symm⟩
  | cons o rest =>
    cases hop : sd.op o with
    | none =>
      simp [initiateNextRead, Kqueue.popFront, hq, initiateRead, setStatus, Sd.modifyOp, hop] at h
    | some op =>
      rw [initiateNextRead_cons hq hop] at h
      exact .inr ⟨o, rest, op, rfl, hop, (Option.some.inj h).symm⟩

/-- While an operation is active, posting only puts the operation in the queue. -/
theorem postRead_busy {sd : Sd} {o : Nat} {op : BlockReadOperation} (hop : sd.op o = some op)
    (hbusy : sd.activeRead ≠ 0) :
    postRead sd o = some
      { sd with
        op := Function.update sd.op o (some { op with stat := .queued })
        readQueue := sd.readQueue.pushBack o } := by
  simp [postRead, setStatus_eq _ hop, initiateIfIdle, enqueue, hbusy]

/-- Completing an operation without a callback deletes it. -/
theorem complete_null {sd : Sd} {o : Nat} {op : BlockReadOperation} (hop : sd.op o = some op)
    (hnull : op.callback = none) (stat : Status) :
    complete sd o stat = some (deleteOperation sd o) := by
  simp [complete, hop, setStatus_eq _ hop, hnull, deleteOperation]

/-- With a callback the operation stays and the callback posts. -/
theorem complete_callback {sd : Sd} {o : Nat} {op : BlockReadOperation} {posts : List Nat}
    (hop : sd.op o = some op) (hcallback : op.callback = some posts) (stat : Status) :
    complete sd o stat = posts.foldlM postRead
      { sd with op := Function.update sd.op o (some { op with stat }) } := by
  simp [complete, hop, setStatus_eq _ hop, hcallback]

/-! ## The cases of the interrupt handler -/

/-- An interrupt with this status ends the transfer of the active operation `o`. -/
def Completes (sd : Sd) (o irq status : Nat) : Prop :=
  irq = 83 ∧ o ≠ 0 ∧ sd.activeRead = o ∧ status.testBit brr = false ∧ status.testBit tc = true ∧
    ∃ op, sd.op o = some op ∧ op.blocks ≤ op.blocksRead

/-- The state in which a transferred block has been counted. -/
def transferred (sd : Sd) (op : BlockReadOperation) (fifo : List Nat) : Sd :=
  { sd with
    stores := sd.stores ++ storeWords sd.activeRead op.destination op.blocksRead 0 fifo
    op := Function.update sd.op sd.activeRead
      (some { op with blocksRead := wrap (op.blocksRead + 1) })
    acknowledged := sd.acknowledged ++ [bits [brr]] }

theorem bufferReadReady_eq {sd : Sd} {op : BlockReadOperation}
    (hop : sd.op sd.activeRead = some op) (fifo : List Nat) :
    bufferReadReady sd fifo = some (transferred sd op fifo) := by
  simp only [bufferReadReady, hop, addBlocksRead, Sd.modifyOp, Option.bind_eq_bind,
    Option.bind_some, Option.map_some]
  rfl

theorem transferComplete_again {sd : Sd} {op : BlockReadOperation}
    (hop : sd.op sd.activeRead = some op) (h : op.blocksRead < op.blocks) :
    transferComplete sd =
      some ((sendCmd17 sd (wrap (op.address + op.blocksRead))).acknowledge (bits [tc])) := by
  simp [transferComplete, hop, h]

theorem transferComplete_done {sd : Sd} {op : BlockReadOperation}
    (hop : sd.op sd.activeRead = some op) (h : op.blocks ≤ op.blocksRead) :
    transferComplete sd = (complete sd sd.activeRead .successful).bind fun sd =>
      initiateNextRead ({ sd with activeRead := 0 }.acknowledge (bits [tc])) := by
  simp [transferComplete, hop, Nat.not_lt.mpr h]

/-- What the handler does. -/
inductive Handled (sd : Sd) (irq status : Nat) (fifo : List Nat) : Sd → Prop where
  | quiet (acknowledged : List Nat) : Handled sd irq status fifo { sd with acknowledged }
  | ready {op : BlockReadOperation} : sd.activeRead ≠ 0 → status.testBit brr = true →
      sd.op sd.activeRead = some op → Handled sd irq status fifo (transferred sd op fifo)
  | again {op : BlockReadOperation} : sd.activeRead ≠ 0 → status.testBit brr = false →
      status.testBit tc = true → sd.op sd.activeRead = some op → op.blocksRead < op.blocks →
      Handled sd irq status fifo
        ((sendCmd17 sd (wrap (op.address + op.blocksRead))).acknowledge (bits [tc]))
  | done {done next : Sd} : Completes sd sd.activeRead irq status →
      complete sd sd.activeRead .successful = some done →
      initiateNextRead ({ done with activeRead := 0 }.acknowledge (bits [tc])) = some next →
      Handled sd irq status fifo next

theorem irqHandler_handled {sd sd' : Sd} {irq status : Nat} {fifo : List Nat}
    (h : irqHandler sd irq status fifo = some sd') : Handled sd irq status fifo sd' := by
  unfold irqHandler at h
  split_ifs at h with hirq hidle hbrr htc hcc
  · obtain rfl := Option.some.inj h
    exact .quiet sd.acknowledged
  · obtain rfl := Option.some.inj h
    exact .quiet _
  · cases hop : sd.op sd.activeRead with
    | none => simp [bufferReadReady, hop] at h
    | some op =>
      rw [bufferReadReady_eq hop] at h
      obtain rfl := Option.some.inj h
      exact .ready hidle hbrr hop
  · cases hop : sd.op sd.activeRead with
    | none => simp [transferComplete, hop] at h
    | some op =>
      by_cases hlt : op.blocksRead < op.blocks
      · rw [transferComplete_again hop hlt] at h
        obtain rfl := Option.some.inj h
        exact .again hidle (by simpa using hbrr) htc hop hlt
      · rw [transferComplete_done hop (Nat.le_of_not_lt hlt)] at h
        obtain ⟨done, hdone, hnext⟩ := Option.bind_eq_some_iff.mp h
        exact .done ⟨by simpa using hirq, hidle, rfl, by simpa using hbrr, htc, op, hop,
          Nat.le_of_not_lt hlt⟩ hdone hnext
  · obtain rfl := Option.some.inj h
    exact .quiet _
  · obtain rfl := Option.some.inj h
    exact .quiet sd.acknowledged

/-- The interrupt that ends a transfer completes the operation and starts the next one. -/
theorem irqHandler_completes {sd : Sd} {o irq status : Nat} (h : Completes sd o irq status)
    (fifo : List Nat) :
    irqHandler sd irq status fifo = (complete sd o .successful).bind fun sd =>
      initiateNextRead ({ sd with activeRead := 0 }.acknowledge (bits [tc])) := by
  obtain ⟨rfl, ho, rfl, hbrr, htc, op, hop, hle⟩ := h
  simp [irqHandler, ho, hbrr, htc, transferComplete_done hop hle]

/-! ## The active operation and the queue -/

/-- The active operation and the queued ones are distinct and alive. -/
structure Sound (sd : Sd) : Prop where
  active : sd.activeRead ≠ 0 → ∃ op, sd.op sd.activeRead = some op
  queued : ∀ o ∈ sd.readQueue.elements, o ≠ 0 ∧ o ≠ sd.activeRead ∧ ∃ op, sd.op o = some op
  nodup : sd.readQueue.elements.Nodup

/-- An operation that is alive and that the driver does not have. -/
structure Unposted (sd : Sd) (o : Nat) : Prop where
  nonnull : o ≠ 0
  inactive : o ≠ sd.activeRead
  unqueued : o ∉ sd.readQueue.elements
  alive : ∃ op, sd.op o = some op

theorem sound_initial : Sound .initial where
  active := by simp [Sd.initial]
  queued := by simp [Sd.initial, Kqueue.empty]
  nodup := by simp [Sd.initial, Kqueue.empty]

/-- Only which operations are alive, which is active and which are queued matters. -/
theorem Sound.congr {sd sd' : Sd} (h : Sound sd) (hactive : sd'.activeRead = sd.activeRead)
    (hqueue : sd'.readQueue = sd.readQueue)
    (hop : ∀ o, (∃ op, sd.op o = some op) → ∃ op, sd'.op o = some op) : Sound sd' where
  active := by
    rw [hactive]
    exact fun ho => hop _ (h.active ho)
  queued := by
    rw [hactive, hqueue]
    exact fun o ho => ⟨(h.queued o ho).1, (h.queued o ho).2.1, hop o (h.queued o ho).2.2⟩
  nodup := by
    rw [hqueue]
    exact h.nodup

theorem alive_update {sd : Sd} (p : Nat) (op' : BlockReadOperation) (o : Nat)
    (h : ∃ op, sd.op o = some op) : ∃ op, Function.update sd.op p (some op') o = some op := by
  obtain ⟨op, hop⟩ := h
  by_cases ho : o = p
  · subst ho
    exact ⟨op', by simp⟩
  · exact ⟨op, by rw [Function.update_of_ne ho, hop]⟩

theorem Sound.pushBack {sd : Sd} (h : Sound sd) {o : Nat} (ho : Unposted sd o) :
    Sound (enqueue sd o) where
  active := h.active
  queued := by
    intro p hp
    rcases List.mem_append.mp hp with hp | hp
    · exact h.queued p hp
    · obtain rfl := List.mem_singleton.mp hp
      exact ⟨ho.nonnull, ho.inactive, ho.alive⟩
  nodup := by
    refine List.nodup_append.mpr ⟨h.nodup, by simp, ?_⟩
    intro p hp q hq hpq
    rw [List.mem_singleton.mp hq] at hpq
    exact ho.unqueued (hpq ▸ hp)

/-- The next operation is started, if there is one. -/
theorem Sound.initiateNextRead {sd : Sd} (h : Sound sd) :
    ∃ sd', WagtailSd.initiateNextRead sd = some sd' ∧ Sound sd' := by
  cases hq : sd.readQueue.elements with
  | nil => exact ⟨sd, initiateNextRead_nil hq, h⟩
  | cons o rest =>
    have hmem : ∀ p ∈ o :: rest, p ∈ sd.readQueue.elements := by
      rw [hq]
      exact fun _ hp => hp
    obtain ⟨hpos, -, op, hop⟩ := h.queued o (hmem o (by simp))
    have hnodup := h.nodup
    rw [hq, List.nodup_cons] at hnodup
    refine ⟨_, initiateNextRead_cons hq hop, ?_, ?_, hnodup.2⟩
    · exact fun _ => alive_update o _ o ⟨op, hop⟩
    · intro p hp
      obtain ⟨hpos', -, hlive⟩ := h.queued p (hmem p (List.mem_cons_of_mem o hp))
      exact ⟨hpos', fun (heq : p = o) => hnodup.1 (heq ▸ hp), alive_update o _ p hlive⟩

theorem Sound.setStatus {sd : Sd} (h : Sound sd) {o : Nat} {op : BlockReadOperation}
    (hop : sd.op o = some op) (stat : Status) :
    ∃ sd', WagtailSd.setStatus sd o stat = some sd' ∧ Sound sd' :=
  ⟨_, setStatus_eq _ hop stat, h.congr rfl rfl (alive_update o _)⟩

theorem Sound.initiateIfIdle {sd : Sd} (h : Sound sd) :
    ∃ sd', WagtailSd.initiateIfIdle sd = some sd' ∧ Sound sd' := by
  unfold WagtailSd.initiateIfIdle
  split_ifs
  · exact h.initiateNextRead
  · exact ⟨sd, rfl, h⟩

end WagtailSd
