import Wagtail.BlockDevice
import Wagtail.Library.Runs
import Wagtail.SdQueue

/-!
# The lifetime of block read operations

An operation without a callback is deleted by `io_operation::complete`, and the
thread that waits for it deletes it again. So the lifetime of an operation is
kept as long as no interrupt completes it, and by no request that returns.
-/
namespace WagtailBlockDevice

open Runs (Run Guarded)
open WagtailSd
open WagtailKqueue

/-! ## What the driver leaves alone -/

/-- A piece of the driver that neither completes nor deletes an operation. -/
structure Frame (sd sd' : Sd) : Prop where
  op : ∀ o op', sd'.op o = some op' → ∃ op, sd.op o = some op ∧ op'.callback = op.callback ∧
    (op'.stat = op.stat ∨ Waiting op'.stat)
  alive : ∀ o, (∃ op, sd.op o = some op) → ∃ op, sd'.op o = some op
  accesses : sd'.accesses = sd.accesses
  unposted : ∀ o, Unposted sd o → Unposted sd' o

/-- A change to one live operation that keeps its callback. -/
theorem frame_update {sd sd' : Sd} {p : Nat} {op op' : BlockReadOperation}
    (hop : sd.op p = some op) (hupdate : sd'.op = Function.update sd.op p (some op'))
    (hcallback : op'.callback = op.callback) (hstat : op'.stat = op.stat ∨ Waiting op'.stat)
    (haccesses : sd'.accesses = sd.accesses)
    (hactive : sd'.activeRead = sd.activeRead ∨ sd'.activeRead ∈ sd.readQueue.elements)
    (hqueue : ∀ o ∈ sd'.readQueue.elements, o ∈ sd.readQueue.elements) : Frame sd sd' where
  op := by
    intro o op₂ hop₂
    rw [hupdate] at hop₂
    by_cases ho : o = p
    · subst ho
      rw [Function.update_self, Option.some_inj] at hop₂
      subst hop₂
      exact ⟨op, hop, hcallback, hstat⟩
    · rw [Function.update_of_ne ho] at hop₂
      exact ⟨op₂, hop₂, rfl, .inl rfl⟩
  alive := by
    rw [hupdate]
    exact alive_update p op'
  accesses := haccesses
  unposted := by
    intro o ho
    refine ⟨ho.nonnull, ?_, fun hmem => ho.unqueued (hqueue o hmem), ?_⟩
    · rcases hactive with hactive | hactive
      · rw [hactive]
        exact ho.inactive
      · exact fun heq => ho.unqueued (heq ▸ hactive)
    · rw [hupdate]
      exact alive_update p op' o ho.alive

theorem frame_of_eq {sd sd' : Sd} (hop : sd'.op = sd.op) (haccesses : sd'.accesses = sd.accesses)
    (hactive : sd'.activeRead = sd.activeRead) (hqueue : sd'.readQueue = sd.readQueue) :
    Frame sd sd' where
  op := by
    rw [hop]
    exact fun o op' ho => ⟨op', ho, rfl, .inl rfl⟩
  alive := by
    rw [hop]
    exact fun o ho => ho
  accesses := haccesses
  unposted := fun o ho => ⟨ho.nonnull, hactive ▸ ho.inactive, hqueue ▸ ho.unqueued, hop ▸ ho.alive⟩

theorem frame_setStatus {sd sd' : Sd} {o : Nat} {stat : Status} (hstat : Waiting stat)
    (h : setStatus sd o stat = some sd') : Frame sd sd' := by
  obtain ⟨op, hop, rfl⟩ := Option.map_eq_some_iff.mp h
  exact frame_update hop rfl rfl (.inr hstat) rfl (.inl rfl) (fun _ ho => ho)

theorem frame_initiateNextRead {sd sd' : Sd} (h : initiateNextRead sd = some sd') :
    Frame sd sd' := by
  rcases initiateNextRead_cases h with ⟨-, rfl⟩ | ⟨o, rest, op, hq, hop, rfl⟩
  · exact frame_of_eq rfl rfl rfl rfl
  · refine frame_update hop rfl rfl (.inr (.inr rfl)) rfl (.inr ?_) ?_
    · simp [started, sendCmd17, hq]
    · intro p hp
      rw [hq]
      exact List.mem_cons_of_mem o hp

theorem frame_initiateIfIdle {sd sd' : Sd} (h : initiateIfIdle sd = some sd') : Frame sd sd' := by
  unfold initiateIfIdle at h
  split_ifs at h
  · exact frame_initiateNextRead h
  · obtain rfl := Option.some.inj h
    exact frame_of_eq rfl rfl rfl rfl

/-- The state between the end of one transfer and the start of the next. -/
def completed (sd : Sd) : Sd :=
  { deleteOperation sd sd.activeRead with activeRead := 0 }.acknowledge (bits [tc])

/-- An interrupt either leaves the lifetimes alone or ends the transfer of one operation,
which deletes it. -/
theorem interrupt_cases {sd sd' : Sd} {irq status : Nat} {fifo : List Nat}
    (hnull : ∀ o op, sd.op o = some op → op.callback = none)
    (h : irqHandler sd irq status fifo = some sd') :
    (¬ Completes sd sd.activeRead irq status ∧ Frame sd sd' ∧ (Sound sd → Sound sd')) ∨
    (Completes sd sd.activeRead irq status ∧ initiateNextRead (completed sd) = some sd') := by
  by_cases hdone : Completes sd sd.activeRead irq status
  · obtain ⟨-, -, -, -, -, op, hop, -⟩ := id hdone
    rw [irqHandler_completes hdone, complete_null hop (hnull _ _ hop)] at h
    exact .inr ⟨hdone, h⟩
  · refine .inl ⟨hdone, ?_⟩
    cases irqHandler_handled h with
    | quiet acknowledged =>
      exact ⟨frame_of_eq rfl rfl rfl rfl, fun hs => hs.congr rfl rfl fun o ho => ho⟩
    | ready hbusy hbrr hop =>
      exact ⟨frame_update hop rfl rfl (.inl rfl) rfl (.inl rfl) (fun _ ho => ho),
        fun hs => hs.congr rfl rfl (alive_update _ _)⟩
    | again hbusy hbrr htc hop hlt =>
      exact ⟨frame_of_eq rfl rfl rfl rfl, fun hs => hs.congr rfl rfl fun o ho => ho⟩
    | done h _ _ => exact absurd h hdone

/-! ## The invariant -/

/-- Where an operation and its thread stand together. -/
structure Coherent (s : System) : Prop where
  sound : Sound s.sd
  unissued : ∀ o, s.waiter o = none →
    s.sd.op o = none ∧ ∀ a ∈ s.sd.accesses, a.operation ≠ o
  posting : ∀ o, s.waiter o = some .setQueued ∨ s.waiter o = some .enqueue → Unposted s.sd o
  pending : ∀ o op, s.sd.op o = some op → op.callback = none ∧ Waiting op.stat ∧
    ∀ stat, .poll o stat ∈ s.sd.accesses → Waiting stat
  dangling : ∀ o, s.waiter o = some .delete ∨ s.waiter o = some .returned → s.sd.op o = none

theorem coherent_initial : Coherent .initial where
  sound := sound_initial
  unissued := by simp [System.initial, Sd.initial]
  posting := by simp [System.initial]
  pending := by simp [System.initial, Sd.initial]
  dangling := by simp [System.initial]

theorem Coherent.issued {s : System} (h : Coherent s) {o : Nat} {op : BlockReadOperation}
    (hop : s.sd.op o = some op) : s.waiter o ≠ none := by
  intro hw
  rw [(h.unissued o hw).1] at hop
  cases hop

theorem Coherent.frame {s : System} (h : Coherent s) {sd : Sd} (hf : Frame s.sd sd)
    (hs : Sound sd) : Coherent { s with sd } where
  sound := hs
  unissued := by
    intro o ho
    refine ⟨?_, hf.accesses ▸ (h.unissued o ho).2⟩
    cases hop : sd.op o with
    | none => rfl
    | some op =>
      obtain ⟨op', hop', -⟩ := hf.op o op hop
      exact absurd ho (h.issued hop')
  posting := fun o ho => hf.unposted o (h.posting o ho)
  pending := by
    intro o op hop
    obtain ⟨op', hop', hcallback, hstat⟩ := hf.op o op hop
    obtain ⟨hnull, hwaiting, hpolls⟩ := h.pending o op' hop'
    refine ⟨hcallback.trans hnull, ?_, hf.accesses ▸ hpolls⟩
    rcases hstat with hstat | hstat
    · rw [hstat]
      exact hwaiting
    · exact hstat
  dangling := by
    intro o ho
    cases hop : sd.op o with
    | none => rfl
    | some op =>
      obtain ⟨op', hop', -⟩ := hf.op o op hop
      rw [h.dangling o ho] at hop'
      cases hop'

/-- The thread of an operation goes to a statement that the state of the operation allows. -/
theorem Coherent.goto {s : System} (h : Coherent s) {o : Nat} (pc : Pc)
    (hissued : s.waiter o ≠ none)
    (hposting : pc = .setQueued ∨ pc = .enqueue → Unposted s.sd o)
    (hdangling : pc = .delete ∨ pc = .returned → s.sd.op o = none) :
    Coherent (s.goto o pc s.sd) where
  sound := h.sound
  unissued := by
    intro p hp
    by_cases hpo : p = o
    · simp [System.goto, hpo] at hp
    · exact h.unissued p (by simpa [System.goto, hpo] using hp)
  posting := by
    intro p hp
    by_cases hpo : p = o
    · subst hpo
      exact hposting (by simpa [System.goto] using hp)
    · exact h.posting p (by simpa [System.goto, hpo] using hp)
  pending := h.pending
  dangling := by
    intro p hp
    by_cases hpo : p = o
    · subst hpo
      exact hdangling (by simpa [System.goto] using hp)
    · exact h.dangling p (by simpa [System.goto, hpo] using hp)

/-- Deleting an operation that the driver does not have. -/
theorem Coherent.delete {s : System} (h : Coherent s) {o : Nat} (sd : Sd) (hs : Sound sd)
    (hissued : s.waiter o ≠ none)
    (hposted : s.waiter o ≠ some .setQueued ∧ s.waiter o ≠ some .enqueue)
    (hop : sd.op = Function.update s.sd.op o none)
    (haccesses : sd.accesses = s.sd.accesses ++ [.delete o])
    (hunposted : ∀ p ≠ o, Unposted s.sd p → Unposted sd p) : Coherent { s with sd } where
  sound := hs
  unissued := by
    intro p hp
    have hpo : p ≠ o := fun heq => hissued (heq ▸ hp)
    obtain ⟨hnone, hpast⟩ := h.unissued p hp
    refine ⟨by simp [hop, hpo, hnone], fun a ha => ?_⟩
    rw [haccesses] at ha
    rcases List.mem_append.mp ha with ha | ha
    · exact hpast a ha
    · rw [List.mem_singleton.mp ha]
      exact hpo.symm
  posting := by
    intro p hp
    refine hunposted p (fun heq => ?_) (h.posting p hp)
    subst heq
    exact hp.elim hposted.1 hposted.2
  pending := by
    intro p op hp
    rw [hop] at hp
    by_cases hpo : p = o
    · subst hpo
      simp at hp
    · rw [Function.update_of_ne hpo] at hp
      obtain ⟨hnull, hwaiting, hpolls⟩ := h.pending p op hp
      refine ⟨hnull, hwaiting, fun stat hstat => hpolls stat ?_⟩
      simpa [haccesses] using hstat
  dangling := by
    intro p hp
    by_cases hpo : p = o
    · simp [hop, hpo]
    · simpa [hop, hpo] using h.dangling p hp

/-! ## Steps keep the invariant -/

theorem Coherent.issue {s t : System} {o : Nat} {request : Request} (h : Coherent s)
    (hstep : Step s (.issue o request) t) : Coherent t := by
  simp only [Step, step, Option.ite_none_right_eq_some] at hstep
  obtain ⟨⟨ho, hfresh⟩, hstep⟩ := hstep
  obtain rfl := Option.some.inj hstep
  obtain ⟨hnone, hpast⟩ := h.unissued o hfresh
  have hother : ∀ p, (∃ op, s.sd.op p = some op) → p ≠ o := by
    rintro p ⟨op, hop⟩ rfl
    rw [hnone] at hop
    cases hop
  refine ⟨h.sound.congr rfl rfl (alive_update o _), ?_, ?_, ?_, ?_⟩
  · intro p hp
    by_cases hpo : p = o
    · simp [System.goto, hpo] at hp
    · simpa [System.goto, hpo] using h.unissued p (by simpa [System.goto, hpo] using hp)
  · intro p hp
    by_cases hpo : p = o
    · subst hpo
      refine ⟨ho, fun hactive => ?_, fun hmem => ?_, ⟨_, Function.update_self ..⟩⟩
      · rw [hactive] at ho
        exact hother _ (h.sound.active ho) hactive.symm
      · exact hother p (h.sound.queued p hmem).2.2 rfl
    · have hold := h.posting p (by simpa [System.goto, hpo] using hp)
      exact ⟨hold.nonnull, hold.inactive, hold.unqueued, alive_update o _ p hold.alive⟩
  · intro p op hp
    by_cases hpo : p = o
    · subst hpo
      obtain rfl : request.operation = op := by simpa [System.goto] using hp
      refine ⟨by cases request <;> rfl, ?_, fun stat hstat => absurd rfl (hpast _ hstat)⟩
      cases request <;> exact .inr rfl
    · exact h.pending p op (by simpa [System.goto, hpo] using hp)
  · intro p hp
    by_cases hpo : p = o
    · simp [System.goto, hpo] at hp
    · simpa [System.goto, hpo] using h.dangling p (by simpa [System.goto, hpo] using hp)

theorem Coherent.advance {s t : System} {o : Nat} (h : Coherent s)
    (hstep : Step s (.advance o) t) : Coherent t := by
  simp only [Step, step] at hstep
  cases hw : s.waiter o with
  | none => simp [hw] at hstep
  | some pc =>
    have hissued : s.waiter o ≠ none := by simp [hw]
    rw [hw] at hstep
    cases pc with
    | setQueued =>
      obtain ⟨sd, hsd, rfl⟩ := Option.map_eq_some_iff.mp hstep
      have hf := frame_setStatus (.inl rfl) hsd
      have hs : Sound sd := by
        obtain ⟨op, hop⟩ := (h.posting o (.inl hw)).alive
        obtain ⟨sd', hsd', hs⟩ := h.sound.setStatus hop .queued
        rwa [Option.some.inj (hsd.symm.trans hsd')]
      exact (h.frame hf hs).goto _ hissued (fun _ => hf.unposted o (h.posting o (.inl hw))) (by simp)
    | enqueue =>
      obtain rfl := Option.some.inj hstep
      have hunposted := h.posting o (.inr hw)
      have h' := h.goto .initiate hissued (by simp) (by simp)
      refine ⟨h.sound.pushBack hunposted, h'.unissued, fun p hp => ?_, h'.pending, h'.dangling⟩
      have hold := h'.posting p hp
      refine ⟨hold.nonnull, hold.inactive, fun hmem => ?_, hold.alive⟩
      rcases List.mem_append.mp hmem with hmem | hmem
      · exact hold.unqueued hmem
      · rw [List.mem_singleton.mp hmem] at hp
        simp [System.goto] at hp
    | initiate =>
      obtain ⟨sd, hsd, rfl⟩ := Option.map_eq_some_iff.mp hstep
      obtain ⟨sd', hsd', hs⟩ := h.sound.initiateIfIdle
      rw [← Option.some.inj (hsd.symm.trans hsd')] at hs
      exact (h.frame (frame_initiateIfIdle hsd) hs).goto _ hissued (by simp) (by simp)
    | poll => simp at hstep
    | delete =>
      obtain rfl := Option.some.inj hstep
      have hnone := h.dangling o (.inl hw)
      have hop : (deleteOperation s.sd o).op = s.sd.op := by simp [deleteOperation, ← hnone]
      refine (h.delete (deleteOperation s.sd o) ?_ hissued (by simp [hw]) rfl rfl ?_).goto
        _ hissued (by simp) (by simp [deleteOperation])
      · exact h.sound.congr rfl rfl fun p hp => by rwa [hop]
      · exact fun p _ hp => ⟨hp.nonnull, hp.inactive, hp.unqueued, by rw [hop]; exact hp.alive⟩
    | returned => simp at hstep

theorem Coherent.poll {s t : System} {o : Nat} {stat : Status} (h : Coherent s)
    (hstep : Step s (.poll o stat) t) : Coherent t := by
  simp only [Step, step, Option.ite_none_right_eq_some] at hstep
  obtain ⟨⟨hw, hread⟩, hstep⟩ := hstep
  obtain rfl := Option.some.inj hstep
  have h' := h.goto (o := o) (if Waiting stat then .poll else .delete) (by simp [hw])
    (by split_ifs <;> simp) ?_
  · refine ⟨h.sound.congr rfl rfl fun _ hp => hp, fun p hp => ?_, fun p hp => ?_, fun p op hp => ?_,
      h'.dangling⟩
    · obtain ⟨hnone, hpast⟩ := h'.unissued p hp
      refine ⟨hnone, fun a ha => ?_⟩
      rcases List.mem_append.mp ha with ha | ha
      · exact hpast a ha
      · rw [List.mem_singleton.mp ha]
        rintro (rfl : o = p)
        simp [System.goto] at hp
    · exact ⟨(h'.posting p hp).nonnull, (h'.posting p hp).inactive, (h'.posting p hp).unqueued,
        (h'.posting p hp).alive⟩
    · obtain ⟨hnull, hwaiting, hpolls⟩ := h.pending p op hp
      refine ⟨hnull, hwaiting, fun stat' hstat => ?_⟩
      rcases List.mem_append.mp hstat with hstat | hstat
      · exact hpolls stat' hstat
      · obtain ⟨rfl, rfl⟩ := Access.poll.inj (List.mem_singleton.mp hstat)
        rwa [hread op hp] at hwaiting
  -- a thread leaves the loop only when the operation is gone
  · intro hpc
    cases hop : s.sd.op o with
    | none => rfl
    | some op =>
      have hwaiting := (h.pending o op hop).2.1
      rw [hread op hop] at hwaiting
      simp [hwaiting] at hpc

/-- Between two transfers the operation that was completed is gone. -/
theorem Coherent.completed {s : System} (h : Coherent s) (hbusy : s.sd.activeRead ≠ 0) :
    Coherent { s with sd := completed s.sd } := by
  obtain ⟨op, hop⟩ := h.sound.active hbusy
  have hother : ∀ p, p ≠ s.sd.activeRead → (∃ op, s.sd.op p = some op) →
      ∃ op, (WagtailBlockDevice.completed s.sd).op p = some op := by
    rintro p hp ⟨op, hop⟩
    exact ⟨op, by simpa [WagtailBlockDevice.completed, deleteOperation, Sd.acknowledge, hp] using hop⟩
  refine h.delete (o := s.sd.activeRead) _ ⟨fun hzero => absurd rfl hzero, fun p hp => ?_,
    h.sound.nodup⟩ (h.issued hop) ⟨fun hw => ?_, fun hw => ?_⟩ rfl rfl fun p hp hunposted => ?_
  · obtain ⟨hpos, hinactive, halive⟩ := h.sound.queued p hp
    exact ⟨hpos, hpos, hother p hinactive halive⟩
  · exact (h.posting _ (.inl hw)).inactive rfl
  · exact (h.posting _ (.inr hw)).inactive rfl
  · exact ⟨hunposted.nonnull, hunposted.nonnull, hunposted.unqueued, hother p hp hunposted.alive⟩

theorem Coherent.interrupt {s t : System} {irq status : Nat} {fifo : List Nat} (h : Coherent s)
    (hstep : Step s (.interrupt irq status fifo) t) : Coherent t := by
  obtain ⟨sd, hsd, rfl⟩ := Option.map_eq_some_iff.mp hstep
  rcases interrupt_cases (fun o op hop => (h.pending o op hop).1) hsd with
    ⟨-, hf, hs⟩ | ⟨hdone, hnext⟩
  · exact h.frame hf (hs h.sound)
  · have h' := h.completed hdone.2.1
    obtain ⟨sd', hsd', hs⟩ := h'.sound.initiateNextRead
    rw [← Option.some.inj (hnext.symm.trans hsd')] at hs
    exact h'.frame (frame_initiateNextRead hnext) hs

/-- The handler never reaches for an operation that has been deleted. -/
theorem Coherent.interrupt_total {s : System} (h : Coherent s) (irq status : Nat)
    (fifo : List Nat) : ∃ t, Step s (.interrupt irq status fifo) t := by
  suffices ∃ sd, irqHandler s.sd irq status fifo = some sd by
    obtain ⟨sd, hsd⟩ := this
    exact ⟨_, Option.map_eq_some_iff.mpr ⟨sd, hsd, rfl⟩⟩
  unfold irqHandler
  split_ifs with hirq hidle hbrr htc hcc
  · exact ⟨_, rfl⟩
  · exact ⟨_, rfl⟩
  · obtain ⟨op, hop⟩ := h.sound.active hidle
    exact ⟨_, bufferReadReady_eq hop fifo⟩
  · obtain ⟨op, hop⟩ := h.sound.active hidle
    obtain ⟨sd, hsd, -⟩ := (h.completed hidle).sound.initiateNextRead
    by_cases hlt : op.blocksRead < op.blocks
    · exact ⟨_, transferComplete_again hop hlt⟩
    · refine ⟨sd, ?_⟩
      rw [transferComplete_done hop (Nat.le_of_not_lt hlt),
        complete_null hop (h.pending _ op hop).1]
      exact hsd
  · exact ⟨_, rfl⟩
  · exact ⟨_, rfl⟩

theorem Coherent.step {s t : System} {e : Event} (h : Coherent s) (hstep : Step s e t) :
    Coherent t := by
  cases e with
  | issue o request => exact h.issue hstep
  | advance o => exact h.advance hstep
  | poll o stat => exact h.poll hstep
  | interrupt irq status fifo => exact h.interrupt hstep

theorem Coherent.run {s : System} {es : List Event} (h : Run Step .initial es s) : Coherent s :=
  h.invariant coherent_initial fun _ _ _ hc hstep => hc.step hstep

/-! ## Lifetimes -/

/-- Every deletion of the operation comes after a poll that saw its end, and nothing is done
to the operation afterwards. -/
def Lifetime (o : Nat) (accesses : List Access) : Prop :=
  ∀ before after, accesses = before ++ .delete o :: after →
    (.poll o .successful ∈ before ∨ .poll o .failed ∈ before) ∧ ∀ a ∈ after, a.operation ≠ o

structure KeepsLifetime (s : System) (o : Nat) : Prop where
  lifetime : Lifetime o s.sd.accesses
  once : s.waiter o = some .returned → s.sd.accesses.count (.delete o) = 1
  handler : ∀ irq status fifo, ∃ t, Step s (.interrupt irq status fifo) t

/-- The event is the interrupt that completes the operation. -/
def Completing (o : Nat) (s : System) : Event → Prop
  | .interrupt irq status _ => Completes s.sd o irq status
  | _ => False

theorem Lifetime.of_append {o : Nat} {accesses more : List Access}
    (h : Lifetime o (accesses ++ more)) : Lifetime o accesses := by
  intro before after heq
  obtain ⟨hseen, hafter⟩ := h before (after ++ more) (by simp [heq])
  exact ⟨hseen, fun a ha => hafter a (List.mem_append_left more ha)⟩

theorem interrupt_accesses {s t : System} {irq status : Nat} {fifo : List Nat} (h : Coherent s)
    (hstep : Step s (.interrupt irq status fifo) t) :
    (¬ Completes s.sd s.sd.activeRead irq status ∧ t.sd.accesses = s.sd.accesses) ∨
    (Completes s.sd s.sd.activeRead irq status ∧
      t.sd.accesses = s.sd.accesses ++ [.delete s.sd.activeRead]) := by
  obtain ⟨sd, hsd, rfl⟩ := Option.map_eq_some_iff.mp hstep
  rcases interrupt_cases (fun o op hop => (h.pending o op hop).1) hsd with
    ⟨hdone, hf, -⟩ | ⟨hdone, hnext⟩
  · exact .inl ⟨hdone, hf.accesses⟩
  · exact .inr ⟨hdone, (frame_initiateNextRead hnext).accesses⟩

theorem step_accesses {s t : System} {e : Event} (h : Coherent s) (hstep : Step s e t) :
    ∃ more, t.sd.accesses = s.sd.accesses ++ more := by
  cases e with
  | issue o request =>
    simp only [Step, step, Option.ite_none_right_eq_some] at hstep
    obtain ⟨-, hstep⟩ := hstep
    obtain rfl := Option.some.inj hstep
    exact ⟨[], (List.append_nil _).symm⟩
  | advance o =>
    simp only [Step, step] at hstep
    split at hstep
    · obtain ⟨sd, hsd, rfl⟩ := Option.map_eq_some_iff.mp hstep
      exact ⟨[], by simp [System.goto, (frame_setStatus (.inl rfl) hsd).accesses]⟩
    · obtain rfl := Option.some.inj hstep
      exact ⟨[], (List.append_nil _).symm⟩
    · obtain ⟨sd, hsd, rfl⟩ := Option.map_eq_some_iff.mp hstep
      exact ⟨[], by simp [System.goto, (frame_initiateIfIdle hsd).accesses]⟩
    · obtain rfl := Option.some.inj hstep
      exact ⟨_, rfl⟩
    · cases hstep
  | poll o stat =>
    simp only [Step, step, Option.ite_none_right_eq_some] at hstep
    obtain ⟨-, hstep⟩ := hstep
    obtain rfl := Option.some.inj hstep
    exact ⟨_, rfl⟩
  | interrupt irq status fifo =>
    rcases interrupt_accesses h hstep with ⟨-, heq⟩ | ⟨-, heq⟩
    · exact ⟨[], by rw [heq, List.append_nil]⟩
    · exact ⟨_, heq⟩

/-- The interrupt that completes an operation deletes it before its thread has seen the end. -/
theorem Completing.breaks {s t : System} {e : Event} {o : Nat} (h : Coherent s)
    (hstep : Step s e t) (hdone : Completing o s e) : ¬ Lifetime o t.sd.accesses := by
  cases e with
  | interrupt irq status fifo =>
    obtain ⟨-, -, hactive, -, -, op, hop, -⟩ := id hdone
    subst hactive
    rcases interrupt_accesses h hstep with ⟨hnot, -⟩ | ⟨-, heq⟩
    · exact absurd hdone hnot
    · intro hlife
      obtain ⟨-, -, hpolls⟩ := h.pending _ op hop
      rcases (hlife s.sd.accesses [] heq).1 with hseen | hseen
      · simpa [Waiting] using hpolls _ hseen
      · simpa [Waiting] using hpolls _ hseen
  | issue => exact hdone.elim
  | advance => exact hdone.elim
  | poll => exact hdone.elim

/-- The operation has not been constructed, or it is alive and its thread polls it at most. -/
structure Alive (s : System) (o : Nat) : Prop where
  op : s.waiter o ≠ none → ∃ op, s.sd.op o = some op
  accesses : Access.delete o ∉ s.sd.accesses

theorem Alive.frame {s : System} {o : Nat} (h : Alive s o) {sd : Sd} (hf : Frame s.sd sd) :
    Alive { s with sd } o where
  op := fun ho => hf.alive o (h.op ho)
  accesses := hf.accesses ▸ h.accesses

theorem Alive.goto {s : System} {o p : Nat} (h : Alive s o) (hp : s.waiter p ≠ none) (pc : Pc) :
    Alive (s.goto p pc s.sd) o where
  op := by
    intro ho
    apply h.op
    by_cases hop : o = p
    · exact hop ▸ hp
    · simpa [System.goto, hop] using ho
  accesses := h.accesses

theorem Alive.delete {s : System} {o p : Nat} (h : Alive s o) (sd : Sd) (hpo : o ≠ p)
    (hop : sd.op = Function.update s.sd.op p none)
    (haccesses : sd.accesses = s.sd.accesses ++ [.delete p]) : Alive { s with sd } o where
  op := by simpa [hop, hpo] using h.op
  accesses := by simpa [haccesses, hpo] using h.accesses

/-- An operation stays alive until the interrupt that completes it. -/
theorem Alive.step {s t : System} {e : Event} {o : Nat} (h : Alive s o) (hc : Coherent s)
    (hstep : Step s e t) (hdone : ¬ Completing o s e) : Alive t o := by
  cases e with
  | issue p request =>
    simp only [Step, WagtailBlockDevice.step, Option.ite_none_right_eq_some] at hstep
    obtain ⟨-, hstep⟩ := hstep
    obtain rfl := Option.some.inj hstep
    refine ⟨fun ho => ?_, h.accesses⟩
    by_cases hpo : o = p
    · exact ⟨request.operation, by simp [System.goto, hpo]⟩
    · exact alive_update p _ o (h.op (by simpa [System.goto, hpo] using ho))
  | advance p =>
    simp only [Step, WagtailBlockDevice.step] at hstep
    cases hw : s.waiter p with
    | none => simp [hw] at hstep
    | some pc =>
      have hp : s.waiter p ≠ none := by simp [hw]
      rw [hw] at hstep
      cases pc with
      | setQueued =>
        obtain ⟨sd, hsd, rfl⟩ := Option.map_eq_some_iff.mp hstep
        exact (h.frame (frame_setStatus (.inl rfl) hsd)).goto hp .enqueue
      | enqueue =>
        obtain rfl := Option.some.inj hstep
        have h' := h.goto hp .initiate
        exact ⟨h'.op, h'.accesses⟩
      | initiate =>
        obtain ⟨sd, hsd, rfl⟩ := Option.map_eq_some_iff.mp hstep
        exact (h.frame (frame_initiateIfIdle hsd)).goto hp .poll
      | poll => simp at hstep
      | delete =>
        obtain rfl := Option.some.inj hstep
        have hpo : o ≠ p := by
          rintro rfl
          obtain ⟨op, hop⟩ := h.op hp
          rw [hc.dangling o (.inl hw)] at hop
          cases hop
        exact (h.delete (deleteOperation s.sd p) hpo rfl rfl).goto hp .returned
      | returned => simp at hstep
  | poll p stat =>
    simp only [Step, WagtailBlockDevice.step, Option.ite_none_right_eq_some] at hstep
    obtain ⟨⟨hw, -⟩, hstep⟩ := hstep
    obtain rfl := Option.some.inj hstep
    have h' := h.goto (p := p) (by simp [hw]) (if Waiting stat then .poll else .delete)
    exact ⟨h'.op, by simpa [System.goto] using h.accesses⟩
  | interrupt irq status fifo =>
    obtain ⟨sd, hsd, rfl⟩ := Option.map_eq_some_iff.mp hstep
    rcases interrupt_cases (fun o op hop => (hc.pending o op hop).1) hsd with
      ⟨-, hf, -⟩ | ⟨hactive, hnext⟩
    · exact h.frame hf
    · have hpo : o ≠ s.sd.activeRead := by
        rintro rfl
        exact hdone hactive
      exact (h.delete (completed s.sd) hpo rfl rfl).frame (frame_initiateNextRead hnext)

/-- What is alive has kept its lifetime, and its request has not returned. -/
theorem Alive.keepsLifetime {s : System} {o : Nat} (h : Alive s o) (hc : Coherent s) :
    s.waiter o ≠ some .returned ∧ KeepsLifetime s o := by
  have hreturned : s.waiter o ≠ some .returned := by
    intro hw
    obtain ⟨op, hop⟩ := h.op (by simp [hw])
    rw [hc.dangling o (.inr hw)] at hop
    cases hop
  refine ⟨hreturned, fun before after heq => ?_, fun hw => absurd hw hreturned, hc.interrupt_total⟩
  exact absurd (by rw [heq]; simp) h.accesses

/-- In every run of any number of requests, their threads and the interrupt handler, an
operation keeps its lifetime exactly as long as no interrupt completes it; the operation of
a request that has returned never has. -/
theorem run_keepsLifetime {es : List Event} {s : System} (h : Run Step .initial es s) (o : Nat) :
    (KeepsLifetime s o ↔ Run (Guarded (fun t e => ¬ Completing o t e) Step) .initial es s) ∧
    (s.waiter o = some .returned → ¬ KeepsLifetime s o) := by
  have hguarded : Lifetime o s.sd.accesses →
      Run (Guarded (fun t e => ¬ Completing o t e) Step) .initial es s := by
    induction h with
    | nil => exact fun _ => .nil
    | snoc hrun hstep ih =>
      intro hlife
      have hc := Coherent.run hrun
      obtain ⟨more, hmore⟩ := step_accesses hc hstep
      refine (ih ?_).snoc ⟨fun hdone => hdone.breaks hc hstep hlife, hstep⟩
      exact Lifetime.of_append (hmore ▸ hlife)
  have halive : Run (Guarded (fun t e => ¬ Completing o t e) Step) .initial es s →
      Alive s o ∧ Coherent s := fun hrun =>
    hrun.invariant (I := fun s => Alive s o ∧ Coherent s)
      ⟨⟨fun ho => absurd rfl ho, by simp [System.initial, Sd.initial]⟩, coherent_initial⟩
      fun t e u ht hstep => ⟨ht.1.step ht.2 hstep.2 hstep.1, ht.2.step hstep.2⟩
  have hkeeps := fun hrun => (halive hrun).1.keepsLifetime (halive hrun).2
  exact ⟨⟨fun hk => hguarded hk.lifetime, fun hrun => (hkeeps hrun).2⟩,
    fun hw hk => (hkeeps (hguarded hk.lifetime)).1 hw⟩

/-! ## One request for one block -/

/-- The first sector of the card is read to `0x81400000`: the block arrives, the transfer is
complete, and the thread looks at the operation only then. -/
def firstSector : List Event :=
  [.issue 1 (.readBlock 0x81400000 0), .advance 1, .advance 1, .advance 1,
    .poll 1 .incomplete, .interrupt 83 1 [], .interrupt 83 (bits [brr]) [0, 1, 2],
    .interrupt 83 (bits [tc]) [], .poll 1 .successful, .advance 1]

/-- The state after these events. -/
def firstSectorEnd : System :=
  (firstSector.foldlM step .initial).get (by decide +kernel)

theorem firstSector_run : Run Step .initial firstSector firstSectorEnd :=
  Run.of_foldlM (fun _ _ _ h => h) (Option.some_get _).symm

theorem firstSector_lifetime :
    firstSectorEnd.waiter 1 = some .returned ∧ ¬ KeepsLifetime firstSectorEnd 1 :=
  ⟨by decide +kernel, (run_keepsLifetime firstSector_run 1).2 (by decide +kernel)⟩

/-- The operation is deleted twice, the first time before its thread has seen the end. -/
theorem firstSector_deleted_twice : ¬ ∀ (es : List Event) (s : System) (o : Nat),
    Run Step .initial es s → KeepsLifetime s o := by
  intro hclaim
  have haccesses : firstSectorEnd.sd.accesses =
      [.poll 1 .incomplete, .delete 1, .poll 1 .successful, .delete 1] := by decide +kernel
  have hseen := ((hclaim _ _ 1 firstSector_run).lifetime [.poll 1 .incomplete]
    [.poll 1 .successful, .delete 1] haccesses).1
  simp at hseen

end WagtailBlockDevice
