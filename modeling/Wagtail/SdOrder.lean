import Wagtail.Library.Runs
import Wagtail.SdQueue

/-!
# The order of block reads

Operations are posted, become active and are completed. What has been posted is
always what has been completed, then the active operation, then the queue, also
when a callback posts while its own operation is being completed.
-/
namespace WagtailSdOrder

open WagtailKqueue
open WagtailSd
open Runs (Run Guarded)

variable {sd sd' : Sd} {o : Nat}

/-! ## Observing the driver -/

/-- A completed operation, with its blocks and the buffer-ready interrupts that were handled
for it up to then. -/
structure Completion where
  operation : Nat
  blocks : Nat
  ready : Nat
  deriving DecidableEq, Repr

/-- The driver, and what has happened to operations. -/
structure System where
  sd : Sd
  posted : List Nat
  started : List Nat
  completed : List Completion
  ready : Nat → Nat

def System.initial : System := ⟨.initial, [], [], [], fun _ => 0⟩

inductive Event where
  | construct (o destination blocks address : Nat) (callback : Option (List Nat))
  | post (o : Nat)
  | interrupt (irq status : Nat) (fifo : List Nat)

/-- The active operation, if this interrupt completes it. -/
def finished (sd : Sd) (irq status : Nat) : Option BlockReadOperation :=
  if irq = 83 ∧ sd.activeRead ≠ 0 ∧ status.testBit brr = false ∧ status.testBit tc = true then
    (sd.op sd.activeRead).filter fun op => op.blocks ≤ op.blocksRead
  else none

/-- The interrupt is a buffer-ready one for the active operation. -/
def Ready (sd : Sd) (irq status : Nat) : Prop :=
  irq = 83 ∧ sd.activeRead ≠ 0 ∧ status.testBit brr = true
  deriving Decidable

/-- The operation that has become active, if it is another one than before. -/
def newlyActive (before after : Sd) : List Nat :=
  if after.activeRead = 0 ∨ after.activeRead = before.activeRead then [] else [after.activeRead]

def step (s : System) : Event → Option System
  | .construct o destination blocks address callback =>
    let op := newBlockReadOperation destination blocks address callback
    some { s with sd := { s.sd with op := Function.update s.sd.op o (some op) } }
  | .post o => (postRead s.sd o).map fun sd =>
    { s with sd, posted := s.posted ++ [o], started := s.started ++ newlyActive s.sd sd }
  | .interrupt irq status fifo => (irqHandler s.sd irq status fifo).map fun sd =>
    { sd
      posted := s.posted ++ ((finished s.sd irq status).bind (·.callback)).getD []
      started := s.started ++ newlyActive s.sd sd
      completed := s.completed ++ ((finished s.sd irq status).map fun op =>
        ⟨s.sd.activeRead, op.blocks, s.ready s.sd.activeRead⟩).toList
      ready :=
        if Ready s.sd irq status then
          Function.update s.ready s.sd.activeRead (s.ready s.sd.activeRead + 1)
        else s.ready }

/-- An operation that has been constructed and not been posted. -/
def Fresh (s : System) (o : Nat) : Prop := o ∉ s.posted ∧ ∃ op, s.sd.op o = some op

/-- Every operation is posted once, and a callback knows what it posts. -/
def Allowed (s : System) : Event → Prop
  | .construct o _ _ _ _ => o ≠ 0 ∧ s.sd.op o = none ∧ o ∉ s.posted
  | .post o => Fresh s o
  | .interrupt irq status _ => ∀ op ∈ finished s.sd irq status, ∀ posts ∈ op.callback,
      posts.Nodup ∧ ∀ o ∈ posts, Fresh s o

instance (s : System) (o : Nat) : Decidable (Fresh s o) :=
  decidable_of_iff (o ∉ s.posted ∧ (s.sd.op o).isSome) (by rw [Fresh, Option.isSome_iff_exists])

instance (s : System) (e : Event) : Decidable (Allowed s e) :=
  match e with
  | .construct o _ _ _ _ => inferInstanceAs (Decidable (o ≠ 0 ∧ s.sd.op o = none ∧ o ∉ s.posted))
  | .post o => inferInstanceAs (Decidable (Fresh s o))
  | .interrupt irq status _ => inferInstanceAs (Decidable (∀ op ∈ finished s.sd irq status,
      ∀ posts ∈ op.callback, posts.Nodup ∧ ∀ o ∈ posts, Fresh s o))

def Step : System → Event → System → Prop :=
  Guarded Allowed fun s e t => step s e = some t

/-- The active operation. -/
def active (sd : Sd) : List Nat := if sd.activeRead = 0 then [] else [sd.activeRead]

/-- Operations in the order in which they were posted: the completed ones, at most one active
one, and the queue. -/
structure Ordered (s : System) : Prop where
  posted : s.posted =
    s.completed.map Completion.operation ++ (active s.sd ++ s.sd.readQueue.elements)
  started : s.started = s.completed.map Completion.operation ++ active s.sd
  once : s.posted.Nodup
  idle : s.sd.activeRead = 0 → s.sd.readQueue.elements = []
  transferred : ∀ c ∈ s.completed, c.blocks ≤ c.ready

/-! ## The functions of the driver -/

/-- The operation without its status. -/
def unstat (op : BlockReadOperation) : BlockReadOperation := { op with stat := .incomplete }

theorem unstat_blocksRead {op op' : BlockReadOperation} (h : unstat op = unstat op') :
    op.blocksRead = op'.blocksRead := by
  simpa [unstat] using congrArg BlockReadOperation.blocksRead h

/-- Nothing but the status of operations differs. -/
def SameOps (sd sd' : Sd) : Prop := ∀ o, (sd'.op o).map unstat = (sd.op o).map unstat

theorem SameOps.trans {sd'' : Sd} (h : SameOps sd sd') (h' : SameOps sd' sd'') :
    SameOps sd sd'' := fun o => (h' o).trans (h o)

theorem sameOps_update {op : BlockReadOperation} (op' : BlockReadOperation)
    (hop : sd.op o = some op) (hunstat : unstat op' = unstat op)
    (hupdate : sd'.op = Function.update sd.op o (some op')) : SameOps sd sd' := by
  intro p
  rw [hupdate]
  by_cases hp : p = o
  · subst hp
    simp [hop, hunstat]
  · rw [Function.update_of_ne hp]

theorem SameOps.alive (h : SameOps sd sd') (halive : ∃ op, sd.op o = some op) :
    ∃ op, sd'.op o = some op := by
  obtain ⟨op, hop⟩ := halive
  have hsame := h o
  rw [hop, Option.map_some] at hsame
  obtain ⟨op', hop', -⟩ := Option.map_eq_some_iff.mp hsame
  exact ⟨op', hop'⟩

theorem SameOps.blocksRead {op' : BlockReadOperation} (h : SameOps sd sd')
    (hop' : sd'.op o = some op') : ∃ op, sd.op o = some op ∧ op.blocksRead = op'.blocksRead := by
  have hsame := h o
  rw [hop', Option.map_some] at hsame
  obtain ⟨op, hop, heq⟩ := Option.map_eq_some_iff.mp hsame.symm
  exact ⟨op, hop, unstat_blocksRead heq⟩

/-- The operations that the driver has, in order. -/
def pending (sd : Sd) : List Nat := active sd ++ sd.readQueue.elements

theorem pending_idle (h : sd.activeRead = 0) : pending sd = sd.readQueue.elements := by
  simp [pending, active, h]

theorem pending_busy (h : sd.activeRead ≠ 0) :
    pending sd = sd.activeRead :: sd.readQueue.elements := by
  simp [pending, active, h]

/-- An operation that the driver can work on. -/
def Usable (sd : Sd) (o : Nat) : Prop := o ≠ 0 ∧ ∃ op, sd.op o = some op

theorem Usable.same (h : Usable sd o) (hsame : SameOps sd sd') : Usable sd' o :=
  ⟨h.1, hsame.alive h.2⟩

/-- The front of the queue becomes active. -/
theorem initiateNextRead_spec (hidle : sd.activeRead = 0)
    (husable : ∀ o ∈ sd.readQueue.elements, Usable sd o) :
    ∃ sd', initiateNextRead sd = some sd' ∧ SameOps sd sd' ∧
      pending sd' = sd.readQueue.elements ∧
      (sd'.activeRead = 0 → sd'.readQueue.elements = []) := by
  cases hq : sd.readQueue.elements with
  | nil => exact ⟨sd, initiateNextRead_nil hq, fun o => rfl, by rw [pending_idle hidle, hq],
      fun _ => hq⟩
  | cons o rest =>
    obtain ⟨hpos, op, hop⟩ := husable o (by simp [hq])
    refine ⟨_, initiateNextRead_cons hq hop, ?_, ?_, fun h => absurd h hpos⟩
    · exact sameOps_update { op with stat := .incomplete } hop rfl rfl
    · exact @pending_busy (started sd o rest op) hpos

/-- Posting puts an operation behind the others, and starts it if it is alone. -/
theorem postRead_spec (husable : Usable sd o) (hidle : sd.activeRead = 0 →
    sd.readQueue.elements = []) :
    ∃ sd', postRead sd o = some sd' ∧ SameOps sd sd' ∧ pending sd' = pending sd ++ [o] ∧
      (sd'.activeRead = 0 → sd'.readQueue.elements = []) ∧
      (sd.activeRead ≠ 0 → sd'.activeRead = sd.activeRead) := by
  obtain ⟨hpos, op, hop⟩ := husable
  have hset := setStatus_eq sd hop .queued
  have hpost : postRead sd o = initiateIfIdle (enqueue { sd with
      op := Function.update sd.op o (some { op with stat := .queued }) } o) := by
    simp only [postRead, hset, Option.bind_eq_bind, Option.bind_some]
  generalize hsd₁ : ({ sd with
    op := Function.update sd.op o (some { op with stat := .queued }) } : Sd) = sd₁ at hpost
  have hsame : SameOps sd (enqueue sd₁ o) :=
    sameOps_update { op with stat := .queued } hop rfl (by rw [← hsd₁]; rfl)
  have hactive : (enqueue sd₁ o).activeRead = sd.activeRead := by rw [← hsd₁]; rfl
  have hqueue : (enqueue sd₁ o).readQueue.elements = sd.readQueue.elements ++ [o] := by
    rw [← hsd₁]; rfl
  rw [hpost]
  by_cases hbusy : sd.activeRead = 0
  · have halone : (enqueue sd₁ o).readQueue.elements = [o] := by
      rw [hqueue, hidle hbusy]
      rfl
    obtain ⟨sd', hnext, hsame', hpending, hidle'⟩ := initiateNextRead_spec
      (hactive.trans hbusy) fun p hp => by
        rw [halone, List.mem_singleton] at hp
        rw [hp]
        exact Usable.same ⟨hpos, op, hop⟩ hsame
    refine ⟨sd', ?_, hsame.trans hsame', ?_, hidle', fun h => absurd hbusy h⟩
    · rw [initiateIfIdle, if_pos (hactive.trans hbusy), hnext]
    · rw [hpending, hqueue, pending_idle hbusy]
  · refine ⟨enqueue sd₁ o, ?_, hsame, ?_, fun h => absurd (hactive.symm.trans h) hbusy,
      fun _ => hactive⟩
    · rw [initiateIfIdle, if_neg (hactive ▸ hbusy)]
    · rw [pending_busy (hactive ▸ hbusy), pending_busy hbusy, hactive, hqueue]
      rfl

/-- While an operation is active, a callback only lengthens the queue. -/
theorem posts_spec {posts : List Nat} (hbusy : sd.activeRead ≠ 0)
    (husable : ∀ o ∈ posts, Usable sd o) :
    ∃ sd', posts.foldlM postRead sd = some sd' ∧ SameOps sd sd' ∧
      sd'.activeRead = sd.activeRead ∧
      sd'.readQueue.elements = sd.readQueue.elements ++ posts := by
  induction posts generalizing sd with
  | nil => exact ⟨sd, rfl, fun o => rfl, rfl, (List.append_nil _).symm⟩
  | cons o posts ih =>
    obtain ⟨sd₁, hpost, hsame, hpending, -, hactive⟩ :=
      postRead_spec (husable o (by simp)) fun h => absurd h hbusy
    have hactive := hactive hbusy
    have hbusy₁ : sd₁.activeRead ≠ 0 := hactive ▸ hbusy
    rw [pending_busy hbusy, pending_busy hbusy₁, hactive] at hpending
    have hqueue : sd₁.readQueue.elements = sd.readQueue.elements ++ [o] :=
      (List.cons.inj hpending).2
    obtain ⟨sd', hposts, hsame', hactive', hqueue'⟩ := ih hbusy₁ fun p hp =>
      (husable p (List.mem_cons_of_mem o hp)).same hsame
    refine ⟨sd', ?_, hsame.trans hsame', hactive'.trans hactive, ?_⟩
    · rw [List.foldlM_cons, hpost]
      exact hposts
    · rw [hqueue', hqueue, List.append_assoc]
      rfl

/-- The operations other than `o` are the same up to their status, and `o` is the same if it
is still there. -/
structure Kept (sd sd' : Sd) (o : Nat) : Prop where
  others : ∀ p, p ≠ o → (sd'.op p).map unstat = (sd.op p).map unstat
  self : ∀ op', sd'.op o = some op' → ∃ op, sd.op o = some op ∧ op.blocksRead = op'.blocksRead

theorem Kept.usable {p : Nat} (h : Kept sd sd' o) (hp : p ≠ o) (husable : Usable sd p) :
    Usable sd' p := by
  obtain ⟨hpos, op, hop⟩ := husable
  have hsame := h.others p hp
  rw [hop, Option.map_some] at hsame
  obtain ⟨op', hop', -⟩ := Option.map_eq_some_iff.mp hsame
  exact ⟨hpos, op', hop'⟩

theorem SameOps.kept (h : SameOps sd sd') : Kept sd sd' o :=
  ⟨fun p _ => h p, fun _ hop' => h.blocksRead hop'⟩

theorem Kept.same {sd'' : Sd} (h : Kept sd sd' o) (h' : SameOps sd' sd'') : Kept sd sd'' o := by
  constructor
  · intro p hp
    rw [h' p, h.others p hp]
  · intro op'' hop''
    obtain ⟨op', hop', heq'⟩ := h'.blocksRead hop''
    obtain ⟨op, hop, heq⟩ := h.self op' hop'
    exact ⟨op, hop, heq.trans heq'⟩

theorem Kept.blocksRead {p : Nat} {op' : BlockReadOperation} (h : Kept sd sd' o)
    (hop' : sd'.op p = some op') : ∃ op, sd.op p = some op ∧ op.blocksRead = op'.blocksRead := by
  by_cases hp : p = o
  · subst hp
    exact h.self op' hop'
  · have hsame := h.others p hp
    rw [hop', Option.map_some] at hsame
    obtain ⟨op, hop, heq⟩ := Option.map_eq_some_iff.mp hsame.symm
    exact ⟨op, hop, unstat_blocksRead heq⟩

/-- Completing the active operation lets its callback post, or deletes it. -/
theorem complete_spec {op : BlockReadOperation} (hbusy : sd.activeRead ≠ 0)
    (hop : sd.op sd.activeRead = some op)
    (husable : ∀ posts, op.callback = some posts → ∀ o ∈ posts, Usable sd o) :
    ∃ sd', complete sd sd.activeRead .successful = some sd' ∧ Kept sd sd' sd.activeRead ∧
      sd'.readQueue.elements = sd.readQueue.elements ++ op.callback.getD [] := by
  cases hcallback : op.callback with
  | none =>
    refine ⟨_, complete_null hop hcallback .successful, ⟨?_, ?_⟩, by simp [deleteOperation]⟩
    · intro p hp
      simp [deleteOperation, Function.update_of_ne hp]
    · intro op' hop'
      simp [deleteOperation] at hop'
  | some posts =>
    have hcomplete := complete_callback hop hcallback .successful
    generalize hsd₁ : ({ sd with
      op := Function.update sd.op sd.activeRead (some { op with stat := .successful }) } : Sd) =
        sd₁ at hcomplete
    have hsame : SameOps sd sd₁ :=
      sameOps_update { op with stat := .successful } hop rfl (by rw [← hsd₁])
    have hactive : sd₁.activeRead = sd.activeRead := by rw [← hsd₁]
    have hqueue₁ : sd₁.readQueue = sd.readQueue := by rw [← hsd₁]
    obtain ⟨sd', hposts, hsame', -, hqueue⟩ := posts_spec (hactive ▸ hbusy)
      fun p hp => (husable posts hcallback p hp).same hsame
    refine ⟨sd', hcomplete.trans hposts, (hsame.trans hsame').kept, ?_⟩
    rw [hqueue, hqueue₁]
    rfl

/-! ## The invariant -/

structure Coherent (s : System) : Prop extends Ordered s where
  usable : ∀ o ∈ pending s.sd, Usable s.sd o
  counted : ∀ o op, s.sd.op o = some op → op.blocksRead ≤ s.ready o
  null : s.sd.op 0 = none

theorem coherent_initial : Coherent .initial where
  posted := rfl
  started := rfl
  once := .nil
  idle _ := rfl
  transferred := by simp [System.initial]
  usable := by simp [System.initial, Sd.initial, pending, active, Kqueue.empty]
  counted := by simp [System.initial, Sd.initial]
  null := rfl

variable {s t : System}

/-- What is fresh can be posted. -/
theorem Coherent.fresh_usable (h : Coherent s) (hfresh : Fresh s o) : Usable s.sd o := by
  refine ⟨?_, hfresh.2⟩
  rintro rfl
  obtain ⟨op, hop⟩ := hfresh.2
  rw [h.null] at hop
  cases hop

theorem Coherent.posted_eq (h : Coherent s) :
    s.posted = s.completed.map Completion.operation ++ pending s.sd := h.posted

theorem Coherent.pending_posted (h : Coherent s) (ho : o ∈ pending s.sd) : o ∈ s.posted :=
  h.posted_eq ▸ List.mem_append_right _ ho

theorem Coherent.pending_nodup (h : Coherent s) : (pending s.sd).Nodup :=
  (List.nodup_append.mp (h.posted_eq ▸ h.once)).2.1

/-! ## Steps -/

/-- Memory of a new operation is nobody's. -/
theorem construct_coherent (h : Coherent s) {destination blocks address : Nat}
    {callback : Option (List Nat)}
    (hallowed : Allowed s (.construct o destination blocks address callback))
    (hstep : step s (.construct o destination blocks address callback) = some t) :
    Coherent t := by
  obtain ⟨hpos, hnone, hunposted⟩ := hallowed
  obtain rfl := Option.some.inj hstep
  refine { h with usable := ?_, counted := ?_, null := ?_ }
  · intro p hp
    obtain ⟨hp0, op, hop⟩ := h.usable p hp
    have hpo : p ≠ o := by
      rintro rfl
      rw [hnone] at hop
      cases hop
    exact ⟨hp0, op, by simpa [Function.update_of_ne hpo] using hop⟩
  · intro p op hop
    by_cases hpo : p = o
    · subst hpo
      obtain rfl : newBlockReadOperation destination blocks address callback = op := by
        simpa using hop
      exact Nat.zero_le _
    · exact h.counted p op (by simpa [Function.update_of_ne hpo] using hop)
  · simpa [Function.update_of_ne (Ne.symm hpos)] using h.null

/-- What becomes active is what is active, if nothing was or another one. -/
theorem newlyActive_eq (h : sd'.activeRead = 0 ∨ sd'.activeRead ≠ sd.activeRead) :
    newlyActive sd sd' = active sd' := by
  by_cases h0 : sd'.activeRead = 0
  · simp [newlyActive, active, h0]
  · simp [newlyActive, active, h0, h.resolve_left h0]

theorem post_step (h : Coherent s) (hfresh : Fresh s o) :
    ∃ t, step s (.post o) = some t ∧ Coherent t := by
  have husable := h.fresh_usable hfresh
  obtain ⟨sd', hpost, hsame, hpending, hidle, hactive⟩ := postRead_spec husable h.idle
  refine ⟨_, by rw [step, hpost, Option.map_some], ?_⟩
  refine { posted := ?_, started := ?_, once := ?_, idle := hidle, transferred := h.transferred,
           usable := ?_, counted := ?_, null := ?_ }
  · change s.posted ++ [o] = _ ++ pending sd'
    rw [hpending, h.posted_eq, List.append_assoc]
  · change s.started ++ newlyActive s.sd sd' = _ ++ active sd'
    rw [h.started, List.append_assoc]
    congr 1
    by_cases hbusy : s.sd.activeRead = 0
    · have hnew : newlyActive s.sd sd' = active sd' := newlyActive_eq (by
        rw [hbusy]
        exact Decidable.em _)
      rw [hnew]
      simp [active, hbusy]
    · simp [newlyActive, active, hactive hbusy]
  · refine List.nodup_append.mpr ⟨h.once, by simp, ?_⟩
    intro p hp q hq heq
    rw [List.mem_singleton.mp hq] at heq
    exact hfresh.1 (heq ▸ hp)
  · intro p hp
    change p ∈ pending sd' at hp
    rw [hpending] at hp
    cases List.mem_append.mp hp with
    | inl hp => exact (h.usable p hp).same hsame
    | inr hp =>
      rw [List.mem_singleton.mp hp]
      exact husable.same hsame
  · intro p op hop
    obtain ⟨op', hop', heq⟩ := hsame.blocksRead hop
    exact heq ▸ h.counted p op' hop'
  · have hsame0 := hsame 0
    rw [h.null] at hsame0
    exact Option.map_eq_none_iff.mp hsame0

/-! ## Interrupts -/

/-- An interrupt that neither ends the operation nor brings a block leaves the operations
alone. -/
theorem irqHandler_other {irq status : Nat} (fifo : List Nat)
    (halive : sd.activeRead ≠ 0 → ∃ op, sd.op sd.activeRead = some op)
    (hready : ¬ Ready sd irq status) (hfinished : finished sd irq status = none) :
    ∃ sd', irqHandler sd irq status fifo = some sd' ∧ sd'.op = sd.op ∧
      sd'.activeRead = sd.activeRead ∧ sd'.readQueue = sd.readQueue := by
  unfold irqHandler
  split_ifs with hirq hidle hbrr htc hcc
  · exact ⟨sd, rfl, rfl, rfl, rfl⟩
  · exact ⟨_, rfl, rfl, rfl, rfl⟩
  · exact absurd ⟨by simpa using hirq, hidle, hbrr⟩ hready
  · obtain ⟨op, hop⟩ := halive hidle
    have hlt : op.blocksRead < op.blocks := by
      have hirq' : irq = 83 := by simpa using hirq
      simpa [finished, hirq', hidle, hbrr, htc, hop, Option.filter] using hfinished
    exact ⟨_, transferComplete_again hop hlt, rfl, rfl, rfl⟩
  · exact ⟨_, rfl, rfl, rfl, rfl⟩
  · exact ⟨sd, rfl, rfl, rfl, rfl⟩

theorem irqHandler_ready {irq status : Nat} (fifo : List Nat) {op : BlockReadOperation}
    (hop : sd.op sd.activeRead = some op) (hready : Ready sd irq status) :
    irqHandler sd irq status fifo = some (transferred sd op fifo) := by
  obtain ⟨rfl, hbusy, hbrr⟩ := hready
  simp [irqHandler, hbusy, hbrr, bufferReadReady_eq hop]

theorem finished_some {irq status : Nat} {op : BlockReadOperation}
    (h : finished sd irq status = some op) :
    Completes sd sd.activeRead irq status ∧ sd.op sd.activeRead = some op ∧
      op.blocks ≤ op.blocksRead ∧ ¬ Ready sd irq status := by
  unfold finished at h
  split_ifs at h with hcond
  obtain ⟨hirq, hbusy, hbrr, htc⟩ := hcond
  obtain ⟨hop, hle⟩ := Option.filter_eq_some_iff.mp h
  have hle : op.blocks ≤ op.blocksRead := of_decide_eq_true hle
  exact ⟨⟨hirq, hbusy, rfl, hbrr, htc, op, hop, hle⟩, hop, hle, fun hready => by
    simp [hready.2.2] at hbrr⟩

/-- An interrupt that only touches registers. -/
theorem interrupt_other (h : Coherent s) {irq status : Nat} (fifo : List Nat)
    (hready : ¬ Ready s.sd irq status) (hfinished : finished s.sd irq status = none) :
    ∃ t, step s (.interrupt irq status fifo) = some t ∧ Coherent t := by
  have halive : s.sd.activeRead ≠ 0 → ∃ op, s.sd.op s.sd.activeRead = some op := fun hbusy =>
    (h.usable _ (by rw [pending_busy hbusy]; exact List.mem_cons_self)).2
  obtain ⟨sd', hirq, hop, hactive, hqueue⟩ := irqHandler_other fifo halive hready hfinished
  refine ⟨⟨sd', s.posted, s.started, s.completed, s.ready⟩, ?_, ?_⟩
  · simp [step, hirq, hfinished, hready, newlyActive, hactive]
  · have hact : active sd' = active s.sd := by simp [active, hactive]
    have hpending : pending sd' = pending s.sd := by simp [pending, hact, hqueue]
    refine { posted := ?_, started := ?_, once := h.once, idle := ?_,
             transferred := h.transferred, usable := ?_, counted := ?_, null := ?_ }
    · exact h.posted_eq.trans (by rw [← hpending]; rfl)
    · exact h.started.trans (by rw [← hact])
    · intro hidle
      rw [hqueue]
      exact h.idle (hactive ▸ hidle)
    · intro p hp
      rw [hpending] at hp
      obtain ⟨hpos, op, hp⟩ := h.usable p hp
      exact ⟨hpos, op, by rw [hop]; exact hp⟩
    · intro p op hp
      exact h.counted p op (hop ▸ hp)
    · rw [hop]
      exact h.null

/-- A block has arrived for the active operation. -/
theorem interrupt_ready (h : Coherent s) {irq status : Nat} (fifo : List Nat)
    (hready : Ready s.sd irq status) :
    ∃ t, step s (.interrupt irq status fifo) = some t ∧ Coherent t := by
  obtain ⟨hpos, op, hop⟩ := h.usable s.sd.activeRead (by
    rw [pending_busy hready.2.1]
    exact List.mem_cons_self)
  have hfinished : finished s.sd irq status = none := by
    simp [finished, hready.2.2]
  refine ⟨⟨transferred s.sd op fifo, s.posted, s.started, s.completed,
    Function.update s.ready s.sd.activeRead (s.ready s.sd.activeRead + 1)⟩, ?_, ?_⟩
  · simp [step, irqHandler_ready fifo hop hready, hfinished, hready, newlyActive, transferred]
  · refine { h with usable := ?_, counted := ?_, null := ?_ }
    · exact fun p hp => ⟨(h.usable p hp).1, alive_update _ _ p (h.usable p hp).2⟩
    · intro p op' hop'
      change Function.update s.sd.op _ _ p = _ at hop'
      change _ ≤ Function.update s.ready _ _ p
      by_cases hp : p = s.sd.activeRead
      · subst hp
        rw [Function.update_self] at hop' ⊢
        obtain rfl := Option.some.inj hop'
        exact (Nat.mod_le _ _).trans (Nat.succ_le_succ (h.counted _ op hop))
      · rw [Function.update_of_ne hp] at hop' ⊢
        exact h.counted p op' hop'
    · change Function.update s.sd.op _ _ 0 = none
      rw [Function.update_of_ne (Ne.symm hpos)]
      exact h.null

/-- The active operation is completed, its callback posts, and the next one is started. -/
theorem interrupt_done (h : Coherent s) {irq status : Nat} (fifo : List Nat)
    {op : BlockReadOperation} (hfinished : finished s.sd irq status = some op)
    (hposts : ∀ posts, op.callback = some posts → posts.Nodup ∧ ∀ o ∈ posts, Fresh s o) :
    ∃ t, step s (.interrupt irq status fifo) = some t ∧ Coherent t := by
  obtain ⟨hcompletes, hop, hle, hready⟩ := finished_some hfinished
  have hbusy : s.sd.activeRead ≠ 0 := hcompletes.2.1
  have hpending := pending_busy hbusy
  have hnodup := h.pending_nodup
  rw [hpending, List.nodup_cons] at hnodup
  have hfresh : ∀ o ∈ op.callback.getD [], Fresh s o := by
    intro o ho
    cases hcallback : op.callback with
    | none => simp [hcallback] at ho
    | some posts => exact (hposts posts hcallback).2 o (by simpa [hcallback] using ho)
  have honce : (op.callback.getD []).Nodup := by
    cases hcallback : op.callback with
    | none => exact .nil
    | some posts => exact (hposts posts hcallback).1
  obtain ⟨done, hdone, hkept, hqueue⟩ := complete_spec hbusy hop fun posts hcallback o ho =>
    h.fresh_usable ((hposts posts hcallback).2 o ho)
  have hinactive : s.sd.activeRead ∉ done.readQueue.elements := by
    rw [hqueue, List.mem_append, not_or]
    refine ⟨hnodup.1, fun hmem => (hfresh _ hmem).1 (h.pending_posted ?_)⟩
    rw [hpending]
    exact List.mem_cons_self
  have husable : ∀ p ∈ done.readQueue.elements, Usable done p := by
    intro p hp
    have hne : p ≠ s.sd.activeRead := fun heq => hinactive (heq ▸ hp)
    rw [hqueue] at hp
    cases List.mem_append.mp hp with
    | inl hp =>
      refine hkept.usable hne (h.usable p ?_)
      rw [hpending]
      exact List.mem_cons_of_mem _ hp
    | inr hp => exact hkept.usable hne (h.fresh_usable (hfresh p hp))
  obtain ⟨sd', hnext, hsame, hpending', hidle⟩ := @initiateNextRead_spec
    ({ done with activeRead := 0 }.acknowledge (bits [tc])) rfl husable
  have hkept' : Kept s.sd sd' s.sd.activeRead := hkept.same hsame
  have hactive : sd'.activeRead ≠ s.sd.activeRead := by
    intro heq
    refine hinactive ?_
    change _ = done.readQueue.elements at hpending'
    rw [← hpending', ← heq, pending_busy (heq ▸ hbusy)]
    exact List.mem_cons_self
  have hpending'' : pending sd' = s.sd.readQueue.elements ++ op.callback.getD [] :=
    hpending'.trans hqueue
  refine ⟨⟨sd', s.posted ++ op.callback.getD [], s.started ++ active sd', s.completed ++
    [⟨s.sd.activeRead, op.blocks, s.ready s.sd.activeRead⟩], s.ready⟩, ?_, ?_⟩
  · simp [step, irqHandler_completes hcompletes, hdone, hnext, hfinished, hready,
      newlyActive_eq (.inr hactive)]
  · refine { posted := ?_, started := ?_, once := ?_, idle := hidle, transferred := ?_,
             usable := ?_, counted := ?_, null := ?_ }
    · change s.posted ++ _ = _ ++ pending sd'
      simp [h.posted_eq, hpending, hpending'']
    · simp [h.started, active, hbusy]
    · refine List.nodup_append.mpr ⟨h.once, honce, ?_⟩
      rintro p hp q hq rfl
      exact (hfresh p hq).1 hp
    · intro c hc
      cases List.mem_append.mp hc with
      | inl hc => exact h.transferred c hc
      | inr hc =>
        rw [List.mem_singleton.mp hc]
        exact hle.trans (h.counted _ op hop)
    · intro p hp
      change p ∈ pending sd' at hp
      rw [hpending'] at hp
      exact (husable p hp).same hsame
    · intro p op' hop'
      obtain ⟨op₀, hop₀, heq⟩ := hkept'.blocksRead hop'
      exact heq ▸ h.counted p op₀ hop₀
    · have hsame0 := hkept'.others 0 (Ne.symm hbusy)
      rw [h.null] at hsame0
      exact Option.map_eq_none_iff.mp hsame0

/-! ## Runs -/

/-- Every allowed step is taken and keeps the order. -/
theorem allowed_step (h : Coherent s) {e : Event} (hallowed : Allowed s e) :
    ∃ t, step s e = some t ∧ Coherent t := by
  cases e with
  | construct o destination blocks address callback =>
    exact ⟨_, rfl, construct_coherent h hallowed rfl⟩
  | post o => exact post_step h hallowed
  | interrupt irq status fifo =>
    by_cases hready : Ready s.sd irq status
    · exact interrupt_ready h fifo hready
    · cases hfinished : finished s.sd irq status with
      | none => exact interrupt_other h fifo hready hfinished
      | some op => exact interrupt_done h fifo hfinished (hallowed op hfinished)

theorem step_coherent {e : Event} (h : Coherent s) (hstep : Step s e t) : Coherent t := by
  obtain ⟨t', hstep', hcoherent⟩ := allowed_step h hstep.1
  have heq : step s e = some t := hstep.2
  rw [hstep'] at heq
  exact Option.some.inj heq ▸ hcoherent

/-- Operations are started and completed in the order in which they are posted, and the
driver never faults. -/
theorem run_ordered {es : List Event} (hrun : Run Step .initial es s) :
    Ordered s ∧ ∀ e, Allowed s e → ∃ t, Step s e t := by
  have hcoherent : Coherent s :=
    hrun.invariant coherent_initial fun _ _ _ => step_coherent
  refine ⟨hcoherent.toOrdered, fun e hallowed => ?_⟩
  obtain ⟨t, hstep, -⟩ := allowed_step hcoherent hallowed
  exact ⟨t, hallowed, hstep⟩

/-! ## A callback that posts -/

/-- The step, if it is allowed. -/
def allowedStep (s : System) (e : Event) : Option System := if Allowed s e then step s e else none

theorem allowedStep_step {e : Event} (h : allowedStep s e = some t) : Step s e t := by
  unfold allowedStep at h
  split_ifs at h with hallowed
  exact ⟨hallowed, h⟩

/-- Operation 2 is queued behind operation 1, and operation 3 is posted while 1 is being
completed. -/
def chained : List Event :=
  [.construct 1 0x81400000 1 7 (some [3]), .construct 2 0x81400800 1 9 none,
    .construct 3 0x81401000 1 8 none, .post 1, .post 2, .interrupt 83 1 [],
    .interrupt 83 (bits [brr]) [0, 1, 2], .interrupt 83 (bits [tc]) [],
    .interrupt 83 (bits [brr]) [3, 4, 5], .interrupt 83 (bits [tc]) []]

def chainedEnd : System := (chained.foldlM allowedStep .initial).get (by decide +kernel)

theorem chained_run : Run Step .initial chained chainedEnd :=
  Run.of_foldlM (fun _ _ _ => allowedStep_step) (Option.some_get _).symm

theorem chained_ordered : Ordered chainedEnd ∧ chainedEnd.posted = [1, 2, 3] ∧
    chainedEnd.completed = [⟨1, 1, 1⟩, ⟨2, 1, 1⟩] ∧ chainedEnd.started = [1, 2, 3] ∧
    chainedEnd.sd.activeRead = 3 :=
  ⟨(run_ordered chained_run).1, by decide +kernel, by decide +kernel, by decide +kernel,
    by decide +kernel⟩

end WagtailSdOrder
