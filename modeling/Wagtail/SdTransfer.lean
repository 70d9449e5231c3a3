import Wagtail.Library.Memory
import Wagtail.Library.Runs
import Wagtail.SdQueue

/-!
# Block transfers from the card

The driver against a card that answers every read command with one buffer-ready
interrupt, which delivers the block, and one transfer-complete interrupt. The
driver takes `get_block_size()` for a number of words, so block `k` of an
operation lands at byte `2048 * k` of the destination, and only operations of
one block are delivered to where they belong.
-/
namespace WagtailTransfer

open Runs (Run)
open Word (wrap)
open WagtailSd
open WagtailKqueue

/-! ## The card -/

/-- The 128 words of a block. -/
def block (disk : Nat → Nat → Nat) (address : Nat) : List Nat := (List.range 128).map (disk address)

/-- The driver and the card: how many read commands have been answered, and whether the block
of the one after them has been delivered. -/
structure System where
  sd : Sd
  answered : Nat
  delivering : Bool

def System.initial : System := ⟨.initial, 0, false⟩

inductive Event where
  | construct (o destination blocks address : Nat) (callback : Option (List Nat))
  | post (o : Nat)
  | interrupt (irq status : Nat) (fifo : List Nat)

/-- The card's part of an interrupt. What is neither buffer-ready nor transfer-complete can
happen at any time. -/
def answer (disk : Nat → Nat → Nat) (s : System) (irq status : Nat) (fifo : List Nat) :
    Option (Nat × Bool) :=
  if irq = 83 ∧ status.testBit brr then
    match s.sd.commands[s.answered]? with
    | some command =>
      if s.delivering = false ∧ fifo = block disk command.arg then some (s.answered, true)
      else none
    | none => none
  else if irq = 83 ∧ status.testBit tc then
    if s.delivering then some (s.answered + 1, false) else none
  else some (s.answered, s.delivering)

/-- An operation that has been constructed and not been posted. -/
def Postable (sd : Sd) (o : Nat) : Prop :=
  o ≠ 0 ∧ o ≠ sd.activeRead ∧ o ∉ sd.readQueue.elements ∧ ∃ op ∈ sd.op o, op.blocksRead = 0
  deriving Decidable

/-- Every operation has its own address and is posted once, also by the callbacks. -/
def Allowed (s : System) : Event → Prop
  | .construct o destination blocks address _ =>
    (o ≠ 0 ∧ s.sd.op o = none ∧ .delete o ∉ s.sd.accesses) ∧
      destination < 2 ^ 32 ∧ blocks < 2 ^ 32 ∧ address < 2 ^ 32
  | .post o => Postable s.sd o
  | .interrupt _ status _ =>
    status.testBit brr = false → status.testBit tc = true →
      ∀ op ∈ s.sd.op s.sd.activeRead, op.blocks ≤ op.blocksRead →
        ∀ posts ∈ op.callback, posts.Nodup ∧ ∀ o ∈ posts, Postable s.sd o

instance (s : System) (e : Event) : Decidable (Allowed s e) := by
  cases e with
  | construct o destination blocks address callback => exact inferInstanceAs (Decidable (_ ∧ _))
  | post o => exact inferInstanceAs (Decidable (Postable s.sd o))
  | interrupt irq status fifo =>
    have hposts : Decidable (∀ op ∈ s.sd.op s.sd.activeRead, op.blocks ≤ op.blocksRead →
        ∀ posts ∈ op.callback, posts.Nodup ∧ ∀ o ∈ posts, Postable s.sd o) := inferInstance
    exact @forall_prop_decidable _ _ _ fun _ => @forall_prop_decidable _ _ _ fun _ => hposts

def construct (sd : Sd) (o destination blocks address : Nat) (callback : Option (List Nat)) :
    Sd :=
  let op := newBlockReadOperation destination blocks address callback
  { sd with op := Function.update sd.op o (some op) }

def step (disk : Nat → Nat → Nat) (s : System) (e : Event) : Option System :=
  if Allowed s e then
    match e with
    | .construct o destination blocks address callback =>
      some { s with sd := construct s.sd o destination blocks address callback }
    | .post o => (postRead s.sd o).map fun sd => { s with sd }
    | .interrupt irq status fifo => do
      let (answered, delivering) ← answer disk s irq status fifo
      let sd ← irqHandler s.sd irq status fifo
      some ⟨sd, answered, delivering⟩
  else none

def Step (disk : Nat → Nat → Nat) (s : System) (e : Event) (t : System) : Prop :=
  step disk s e = some t

/-! ## The stores of an operation -/

/-- The stores that the first `n` blocks make for an operation. -/
def storesOf (disk : Nat → Nat → Nat) (o destination address : Nat) : Nat → List Store
  | 0 => []
  | n + 1 => storesOf disk o destination address n ++
      storeWords o destination n 0 (block disk (wrap (address + n)))

theorem storeWords_operation {o destination k i : Nat} {fifo : List Nat} {x : Store}
    (h : x ∈ storeWords o destination k i fifo) : x.operation = o := by
  induction fifo generalizing i with
  | nil => cases h
  | cons word fifo ih =>
    rcases List.mem_cons.mp h with rfl | h
    · rfl
    · exact ih h

theorem storesOf_operation {disk : Nat → Nat → Nat} {o destination address n : Nat} {x : Store}
    (h : x ∈ storesOf disk o destination address n) : x.operation = o := by
  induction n with
  | zero => cases h
  | succ n ih =>
    rcases List.mem_append.mp h with h | h
    · exact ih h
    · exact storeWords_operation h

/-! ## The invariant -/

/-- What the card and the driver agree on while an operation is active. -/
structure Transferring (disk : Nat → Nat → Nat) (s : System) (op : BlockReadOperation) : Prop where
  commands : s.sd.commands.length = s.answered + 1
  commanded : s.delivering = false → op.blocksRead < max 1 op.blocks ∧
    ∃ command, s.sd.commands[s.answered]? = some command ∧
      command.arg = wrap (op.address + op.blocksRead)
  delivered : s.delivering = true → 0 < op.blocksRead
  contiguous : ∃ earlier,
    s.sd.stores = earlier ++ storesOf disk s.sd.activeRead op.destination op.address op.blocksRead

/-- What every state satisfies. -/
structure Coherent (disk : Nat → Nat → Nat) (s : System) : Prop where
  sound : Sound s.sd
  waiting : ∀ o ∈ s.sd.readQueue.elements, ∀ op, s.sd.op o = some op → op.blocksRead = 0
  words : ∀ o op, s.sd.op o = some op → op.blocks < 2 ^ 32 ∧ op.address < 2 ^ 32 ∧
    op.blocksRead ≤ max 1 op.blocks
  stores : ∀ o op, s.sd.op o = some op →
    s.sd.stores.filter (·.operation = o) = storesOf disk o op.destination op.address op.blocksRead
  past : ∀ x ∈ s.sd.stores, s.sd.op x.operation = none → .delete x.operation ∈ s.sd.accesses
  idle : s.sd.activeRead = 0 → s.sd.commands.length = s.answered ∧ s.delivering = false
  busy : s.sd.activeRead ≠ 0 → ∀ op, s.sd.op s.sd.activeRead = some op → Transferring disk s op

theorem coherent_initial (disk : Nat → Nat → Nat) : Coherent disk .initial where
  sound := sound_initial
  waiting := by simp [System.initial, Sd.initial, Kqueue.empty]
  words := by simp [System.initial, Sd.initial]
  stores := by simp [System.initial, Sd.initial]
  past := by simp [System.initial, Sd.initial]
  idle := by simp [System.initial, Sd.initial]
  busy := by simp [System.initial, Sd.initial]

/-! ## Posting and starting -/

theorem Transferring.stat {disk : Nat → Nat → Nat} {s : System} {op : BlockReadOperation}
    (h : Transferring disk s op) (stat : Status) : Transferring disk s { op with stat } :=
  ⟨h.commands, h.commanded, h.delivered, h.contiguous⟩

/-- An operation of the updated state is one of the state before, up to its status. -/
theorem of_update_stat {sd : Sd} {o p : Nat} {op op' : BlockReadOperation} {stat : Status}
    (hop : sd.op o = some op)
    (h : Function.update sd.op o (some { op with stat }) p = some op') :
    ∃ old stat, sd.op p = some old ∧ op' = { old with stat } := by
  by_cases hpo : p = o
  · subst hpo
    rw [Function.update_self, Option.some_inj] at h
    exact ⟨op, stat, hop, h.symm⟩
  · rw [Function.update_of_ne hpo] at h
    exact ⟨op', op'.stat, h, rfl⟩

theorem Coherent.setStat {disk : Nat → Nat → Nat} {s : System} (h : Coherent disk s) {o : Nat}
    {op : BlockReadOperation} (hop : s.sd.op o = some op) (stat : Status) :
    Coherent disk
      { s with sd := { s.sd with op := Function.update s.sd.op o (some { op with stat }) } } where
  sound := h.sound.congr rfl rfl (alive_update o _)
  waiting := by
    intro p hp op' hop'
    obtain ⟨old, stat, hold, rfl⟩ := of_update_stat hop hop'
    exact h.waiting p hp old hold
  words := by
    intro p op' hop'
    obtain ⟨old, stat, hold, rfl⟩ := of_update_stat hop hop'
    exact h.words p old hold
  stores := by
    intro p op' hop'
    obtain ⟨old, stat, hold, rfl⟩ := of_update_stat hop hop'
    exact h.stores p old hold
  past := by
    intro x hx hnone
    apply h.past x hx
    cases hold : s.sd.op x.operation with
    | none => rfl
    | some old =>
      obtain ⟨new, hnew⟩ := alive_update o { op with stat } x.operation ⟨old, hold⟩
      cases hnew.symm.trans hnone
  idle := h.idle
  busy := by
    intro hbusy op' hop'
    obtain ⟨old, stat, hold, rfl⟩ := of_update_stat hop hop'
    have ht := (h.busy hbusy old hold).stat stat
    exact ⟨ht.commands, ht.commanded, ht.delivered, ht.contiguous⟩

theorem Postable.unposted {sd : Sd} {o : Nat} (h : Postable sd o) : Unposted sd o :=
  ⟨h.1, h.2.1, h.2.2.1, h.2.2.2.imp fun _ hop => hop.1⟩

theorem Coherent.enqueue {disk : Nat → Nat → Nat} {s : System} (h : Coherent disk s) {o : Nat}
    (ho : Postable s.sd o) : Coherent disk { s with sd := enqueue s.sd o } where
  sound := h.sound.pushBack ho.unposted
  waiting := by
    intro p hp op hop
    rcases List.mem_append.mp hp with hp | hp
    · exact h.waiting p hp op hop
    · obtain rfl := List.mem_singleton.mp hp
      obtain ⟨-, -, -, op', hop', hzero⟩ := ho
      rwa [Option.some.inj (hop.symm.trans hop')]
  words := h.words
  stores := h.stores
  past := h.past
  idle := h.idle
  busy := fun hbusy op hop =>
    have ht := h.busy hbusy op hop
    ⟨ht.commands, ht.commanded, ht.delivered, ht.contiguous⟩

theorem Coherent.started {disk : Nat → Nat → Nat} {s : System} (h : Coherent disk s)
    (hidle : s.sd.activeRead = 0) {o : Nat} {rest : List Nat} {op : BlockReadOperation}
    (hq : s.sd.readQueue.elements = o :: rest) (hop : s.sd.op o = some op) :
    Coherent disk { s with sd := started s.sd o rest op } := by
  have h' := h.setStat hop .incomplete
  have hmem : ∀ p ∈ o :: rest, p ∈ s.sd.readQueue.elements := by
    rw [hq]
    exact fun _ hp => hp
  have hzero := h.waiting o (hmem o (by simp)) op hop
  have hnodup := h.sound.nodup
  rw [hq, List.nodup_cons] at hnodup
  obtain ⟨hlength, hdelivering⟩ := h.idle hidle
  refine ⟨⟨fun _ => ?_, fun p hp => ?_, hnodup.2⟩, fun p hp => ?_, h'.words, h'.stores, h'.past,
    fun hzero' => absurd hzero' (h.sound.queued o (hmem o (by simp))).1, fun _ op' hop' => ?_⟩
  · exact ⟨_, Function.update_self ..⟩
  · obtain ⟨hpos, -, halive⟩ := h'.sound.queued p (hmem p (List.mem_cons_of_mem o hp))
    exact ⟨hpos, fun (heq : p = o) => hnodup.1 (heq ▸ hp), halive⟩
  · exact h'.waiting p (hmem p (List.mem_cons_of_mem o hp))
  · obtain rfl : { op with stat := .incomplete } = op' := by
      simpa [WagtailSd.started, sendCmd17] using hop'
    refine ⟨?_, fun _ => ⟨?_, ⟨cmd17, wrap op.address⟩, ?_, ?_⟩, fun htrue => ?_, s.sd.stores, ?_⟩
    · simp [WagtailSd.started, sendCmd17, hlength]
    · simp only [hzero]
      omega
    · rw [← hlength]
      exact List.getElem?_concat_length
    · simp only [hzero, Nat.add_zero]
    · simp [hdelivering] at htrue
    · simp [WagtailSd.started, sendCmd17, storesOf, hzero]

theorem Coherent.initiateNextRead {disk : Nat → Nat → Nat} {s : System} (h : Coherent disk s)
    (hidle : s.sd.activeRead = 0) {sd : Sd} (hsd : initiateNextRead s.sd = some sd) :
    Coherent disk { s with sd } := by
  rcases initiateNextRead_cases hsd with ⟨-, rfl⟩ | ⟨o, rest, op, hq, hop, rfl⟩
  · exact h
  · exact h.started hidle hq hop

theorem Coherent.postRead {disk : Nat → Nat → Nat} {s : System} (h : Coherent disk s) {o : Nat}
    (ho : Postable s.sd o) {sd : Sd} (hsd : postRead s.sd o = some sd) :
    Coherent disk { s with sd } := by
  obtain ⟨hpos, hactive, hqueue, op, hop, hzero⟩ := ho
  rw [Option.mem_def] at hop
  have h' := (h.setStat hop .queued).enqueue (o := o)
    ⟨hpos, hactive, hqueue, { op with stat := .queued }, by simp, hzero⟩
  simp only [WagtailSd.postRead, setStatus_eq _ hop, Option.bind_eq_bind, Option.bind_some,
    initiateIfIdle] at hsd
  split_ifs at hsd with hidle
  · exact h'.initiateNextRead hidle hsd
  · obtain rfl := Option.some.inj hsd
    exact h'

/-! ## The end of a transfer -/

/-- The callback of an active operation posts others: they are only queued. -/
theorem Coherent.posts {disk : Nat → Nat → Nat} {s : System} {posts : List Nat}
    (h : Coherent disk s) (hbusy : s.sd.activeRead ≠ 0) (hnodup : posts.Nodup)
    (hposts : ∀ o ∈ posts, Postable s.sd o) {sd : Sd}
    (hsd : posts.foldlM WagtailSd.postRead s.sd = some sd) :
    Coherent disk { s with sd } ∧ sd.activeRead = s.sd.activeRead ∧ sd.stores = s.sd.stores := by
  induction posts generalizing s with
  | nil =>
    obtain rfl := Option.some.inj hsd
    exact ⟨h, rfl, rfl⟩
  | cons o posts ih =>
    obtain ⟨next, hnext, hrest⟩ := Option.bind_eq_some_iff.mp hsd
    have ho := hposts o (by simp)
    have h' := h.postRead ho hnext
    obtain ⟨hnotin, hnodup'⟩ := List.nodup_cons.mp hnodup
    obtain ⟨op, hop⟩ := ho.unposted.alive
    obtain rfl := Option.some.inj ((postRead_busy hop hbusy).symm.trans hnext)
    have hposts' : ∀ p ∈ posts, Postable
        { s.sd with
          op := Function.update s.sd.op o (some { op with stat := .queued })
          readQueue := s.sd.readQueue.pushBack o } p := by
      intro p hp
      have hpo : p ≠ o := fun heq => hnotin (heq ▸ hp)
      obtain ⟨hpos, hactive, hqueue, hfresh⟩ := hposts p (List.mem_cons_of_mem o hp)
      refine ⟨hpos, hactive, fun hmem => ?_, by simpa [hpo] using hfresh⟩
      rcases List.mem_append.mp hmem with hmem | hmem
      · exact hqueue hmem
      · exact hpo (List.mem_singleton.mp hmem)
    obtain ⟨hc, hactive, hstores⟩ := ih h' hbusy hnodup' hposts' hrest
    exact ⟨hc, hactive, hstores⟩

/-- The state between two transfers, when the operation stays. -/
theorem Coherent.retire {disk : Nat → Nat → Nat} {s : System} (h : Coherent disk s)
    (hbusy : s.sd.activeRead ≠ 0) (mask : Nat) :
    Coherent disk ⟨{ s.sd with activeRead := 0 }.acknowledge mask, s.answered + 1, false⟩ := by
  obtain ⟨op, hop⟩ := h.sound.active hbusy
  refine ⟨⟨fun hzero => absurd rfl hzero, fun o ho => ?_, h.sound.nodup⟩, h.waiting, h.words,
    h.stores, h.past, fun _ => ⟨(h.busy hbusy op hop).commands, rfl⟩, fun hzero => absurd rfl hzero⟩
  obtain ⟨hpos, -, halive⟩ := h.sound.queued o ho
  exact ⟨hpos, hpos, halive⟩

theorem Coherent.delete {disk : Nat → Nat → Nat} {s : System} (h : Coherent disk s) {o : Nat}
    (hactive : o ≠ s.sd.activeRead) (hqueue : o ∉ s.sd.readQueue.elements) :
    Coherent disk { s with sd := deleteOperation s.sd o } := by
  have hold : ∀ p op, (deleteOperation s.sd o).op p = some op → s.sd.op p = some op := by
    intro p op hop
    by_cases hpo : p = o
    · simp [deleteOperation, hpo] at hop
    · simpa [deleteOperation, hpo] using hop
  have halive : ∀ p ≠ o, (∃ op, s.sd.op p = some op) →
      ∃ op, (deleteOperation s.sd o).op p = some op := by
    intro p hpo hp
    simpa [deleteOperation, hpo] using hp
  refine ⟨⟨fun hbusy => ?_, fun p hp => ?_, h.sound.nodup⟩, fun p hp op hop => ?_,
    fun p op hop => h.words p op (hold p op hop), fun p op hop => h.stores p op (hold p op hop),
    fun x hx hnone => ?_, h.idle, fun hbusy op hop => ?_⟩
  · exact halive _ hactive.symm (h.sound.active hbusy)
  · obtain ⟨hpos, hne, hp'⟩ := h.sound.queued p hp
    exact ⟨hpos, hne, halive p (fun heq => hqueue (heq ▸ hp)) hp'⟩
  · exact h.waiting p hp op (hold p op hop)
  · by_cases hxo : x.operation = o
    · simp [deleteOperation, hxo]
    · have := h.past x hx (by simpa [deleteOperation, hxo] using hnone)
      simp [deleteOperation, this]
  · have ht := h.busy hbusy op (hold _ op hop)
    exact ⟨ht.commands, ht.commanded, ht.delivered, ht.contiguous⟩

/-- The interrupt that ends a transfer completes the operation and starts the next one. -/
theorem Coherent.done {disk : Nat → Nat → Nat} {s : System} (h : Coherent disk s)
    (hbusy : s.sd.activeRead ≠ 0) {op : BlockReadOperation}
    (hop : s.sd.op s.sd.activeRead = some op)
    (hposts : ∀ posts ∈ op.callback, posts.Nodup ∧ ∀ o ∈ posts, Postable s.sd o) {done sd : Sd}
    (hdone : complete s.sd s.sd.activeRead .successful = some done)
    (hsd : WagtailSd.initiateNextRead ({ done with activeRead := 0 }.acknowledge (bits [tc])) =
      some sd) :
    Coherent disk ⟨sd, s.answered + 1, false⟩ ∧ done.stores = s.sd.stores := by
  cases hcallback : op.callback with
  | none =>
    rw [complete_null hop hcallback] at hdone
    obtain rfl := Option.some.inj hdone
    have hqueue : s.sd.activeRead ∉ s.sd.readQueue.elements := fun hmem =>
      (h.sound.queued _ hmem).2.1 rfl
    have hretired := (h.retire hbusy (bits [tc])).delete (o := s.sd.activeRead) hbusy hqueue
    exact ⟨hretired.initiateNextRead rfl hsd, rfl⟩
  | some posts =>
    rw [complete_callback hop hcallback] at hdone
    obtain ⟨hnodup, hposts⟩ := hposts posts hcallback
    have hposts' : ∀ o ∈ posts, Postable
        { s.sd with op := Function.update s.sd.op s.sd.activeRead
                      (some { op with stat := .successful }) } o := by
      intro o ho
      obtain ⟨hpos, hactive, hqueue, hfresh⟩ := hposts o ho
      exact ⟨hpos, hactive, hqueue, by simpa [hactive] using hfresh⟩
    obtain ⟨hc, hactive, hstores⟩ := (h.setStat hop .successful).posts hbusy hnodup hposts' hdone
    have hretired := hc.retire (by rw [hactive]; exact hbusy) (bits [tc])
    exact ⟨hretired.initiateNextRead rfl hsd, hstores⟩

/-! ## Interrupts during a transfer -/

/-- The card has commanded the block that the driver stores next. -/
theorem Coherent.ready {disk : Nat → Nat → Nat} {s : System} (h : Coherent disk s)
    (hbusy : s.sd.activeRead ≠ 0) {op : BlockReadOperation}
    (hop : s.sd.op s.sd.activeRead = some op) (hdelivering : s.delivering = false)
    {command : Command} (hcommand : s.sd.commands[s.answered]? = some command) :
    Coherent disk ⟨transferred s.sd op (block disk command.arg), s.answered, true⟩ := by
  have ht := h.busy hbusy op hop
  obtain ⟨hmore, command', hcommand', harg⟩ := ht.commanded hdelivering
  obtain rfl := Option.some.inj (hcommand.symm.trans hcommand')
  obtain ⟨hblocks, haddress, -⟩ := h.words _ op hop
  have hcount : wrap (op.blocksRead + 1) = op.blocksRead + 1 := by
    apply Word.wrap_of_lt
    omega
  obtain ⟨earlier, hearlier⟩ := ht.contiguous
  have hstores : s.sd.stores ++ storeWords s.sd.activeRead op.destination op.blocksRead 0
      (block disk command.arg) = earlier ++ storesOf disk s.sd.activeRead op.destination op.address
        (op.blocksRead + 1) := by
    rw [hearlier, storesOf, harg, List.append_assoc]
  have hnew : ∀ o op', (transferred s.sd op (block disk command.arg)).op o = some op' →
      (o = s.sd.activeRead ∧ op' = { op with blocksRead := op.blocksRead + 1 }) ∨
      (o ≠ s.sd.activeRead ∧ s.sd.op o = some op') := by
    intro o op' hop'
    by_cases ho : o = s.sd.activeRead
    · subst ho
      simp only [transferred, Function.update_self, Option.some_inj, hcount] at hop'
      exact .inl ⟨rfl, hop'.symm⟩
    · exact .inr ⟨ho, by simpa [transferred, ho] using hop'⟩
  refine ⟨h.sound.congr rfl rfl (alive_update _ _), fun o ho op' hop' => ?_, fun o op' hop' => ?_,
    fun o op' hop' => ?_, fun x hx hnone => ?_, fun hzero => absurd hzero hbusy,
    fun _ op' hop' => ?_⟩
  · rcases hnew o op' hop' with ⟨rfl, -⟩ | ⟨-, hold⟩
    · exact absurd rfl (h.sound.queued _ ho).2.1
    · exact h.waiting o ho op' hold
  · rcases hnew o op' hop' with ⟨-, rfl⟩ | ⟨-, hold⟩
    · exact ⟨hblocks, haddress, hmore⟩
    · exact h.words o op' hold
  · have hfilter : (storeWords s.sd.activeRead op.destination op.blocksRead 0
        (block disk command.arg)).filter (·.operation = o) =
        if s.sd.activeRead = o then storeWords s.sd.activeRead op.destination op.blocksRead 0
          (block disk command.arg) else [] := by
      split_ifs with ho
      · exact List.filter_eq_self.mpr fun x hx => by simp [storeWords_operation hx, ho]
      · exact List.filter_eq_nil_iff.mpr fun x hx => by simp [storeWords_operation hx, ho]
    simp only [transferred, List.filter_append, hfilter]
    rcases hnew o op' hop' with ⟨rfl, rfl⟩ | ⟨ho, hold⟩
    · rw [if_pos rfl, h.stores _ op hop, harg]
      rfl
    · rw [if_neg (Ne.symm ho), List.append_nil]
      exact h.stores o op' hold
  · rcases List.mem_append.mp hx with hx | hx
    · by_cases ho : x.operation = s.sd.activeRead
      · simp [transferred, ho] at hnone
      · exact h.past x hx (by simpa [transferred, ho] using hnone)
    · simp [transferred, storeWords_operation hx] at hnone
  · rcases hnew _ op' hop' with ⟨-, rfl⟩ | ⟨hne, -⟩
    · exact ⟨ht.commands, by simp, fun _ => Nat.succ_pos _, earlier, hstores⟩
    · exact absurd rfl hne

/-- The block has been transferred and the next one of the operation is commanded. -/
theorem Coherent.again {disk : Nat → Nat → Nat} {s : System} (h : Coherent disk s)
    (hbusy : s.sd.activeRead ≠ 0) {op : BlockReadOperation}
    (hop : s.sd.op s.sd.activeRead = some op) (hlt : op.blocksRead < op.blocks) (mask : Nat) :
    Coherent disk ⟨(sendCmd17 s.sd (wrap (op.address + op.blocksRead))).acknowledge mask,
      s.answered + 1, false⟩ := by
  refine ⟨h.sound.congr rfl rfl fun _ ho => ho, h.waiting, h.words, h.stores, h.past,
    fun hzero => absurd hzero hbusy, fun _ op' hop' => ?_⟩
  obtain rfl := Option.some.inj (hop.symm.trans hop')
  have ht := h.busy hbusy op hop
  refine ⟨?_, fun _ => ⟨by omega, ⟨cmd17, wrap (wrap (op.address + op.blocksRead))⟩, ?_, ?_⟩,
    by simp, ht.contiguous⟩
  · simp [Sd.acknowledge, sendCmd17, ht.commands]
  · simp only [Sd.acknowledge, sendCmd17, ← ht.commands]
    exact List.getElem?_concat_length
  · simp [wrap]

theorem Coherent.acknowledged {disk : Nat → Nat → Nat} {s : System} (h : Coherent disk s)
    (acknowledged : List Nat) : Coherent disk { s with sd := { s.sd with acknowledged } } :=
  ⟨h.sound.congr rfl rfl fun _ ho => ho, h.waiting, h.words, h.stores, h.past, h.idle,
    fun hbusy op hop =>
      have ht := h.busy hbusy op hop
      ⟨ht.commands, ht.commanded, ht.delivered, ht.contiguous⟩⟩

theorem Coherent.interrupt {disk : Nat → Nat → Nat} {s : System} {irq status answered : Nat}
    {fifo : List Nat} {delivering : Bool} {sd : Sd} (h : Coherent disk s)
    (hallowed : Allowed s (.interrupt irq status fifo))
    (hanswer : answer disk s irq status fifo = some (answered, delivering))
    (hsd : irqHandler s.sd irq status fifo = some sd) :
    Coherent disk ⟨sd, answered, delivering⟩ ∧
      ∀ o, Completes s.sd o irq status → s.delivering = true ∧ sd.stores = s.sd.stores := by
  unfold answer at hanswer
  split_ifs at hanswer with hready htc hdelivering
  -- the block that was commanded last arrives
  · obtain ⟨rfl, hbrr⟩ := hready
    cases hcommand : s.sd.commands[s.answered]? with
    | none => simp [hcommand] at hanswer
    | some command =>
      simp only [hcommand, Option.ite_none_right_eq_some, Option.some_inj, Prod.mk.injEq] at hanswer
      obtain ⟨⟨hdelivering, rfl⟩, rfl, rfl⟩ := hanswer
      have hbusy : s.sd.activeRead ≠ 0 := by
        intro hzero
        rw [← (h.idle hzero).1, List.getElem?_eq_none (Nat.le_refl _)] at hcommand
        cases hcommand
      obtain ⟨op, hop⟩ := h.sound.active hbusy
      rw [irqHandler, if_neg (by simp), if_neg hbusy, if_pos hbrr, bufferReadReady_eq hop] at hsd
      obtain rfl := Option.some.inj hsd
      refine ⟨h.ready hbusy hop hdelivering hcommand, fun o hdone => ?_⟩
      simp [hdone.2.2.2.1] at hbrr
  -- the transfer of the block is complete
  · obtain ⟨rfl, htc⟩ := htc
    simp only [Option.some_inj, Prod.mk.injEq] at hanswer
    obtain ⟨rfl, rfl⟩ := hanswer
    have hbrr : status.testBit brr = false := by simpa using hready
    have hbusy : s.sd.activeRead ≠ 0 := by
      intro hzero
      simp [(h.idle hzero).2] at hdelivering
    obtain ⟨op, hop⟩ := h.sound.active hbusy
    rw [irqHandler, if_neg (by simp), if_neg hbusy, hbrr, if_neg (by simp), if_pos htc] at hsd
    by_cases hlt : op.blocksRead < op.blocks
    · rw [transferComplete_again hop hlt] at hsd
      obtain rfl := Option.some.inj hsd
      exact ⟨h.again hbusy hop hlt _, fun _ _ => ⟨hdelivering, rfl⟩⟩
    · have hle := Nat.le_of_not_lt hlt
      rw [transferComplete_done hop hle] at hsd
      obtain ⟨done, hdone, hnext⟩ := Option.bind_eq_some_iff.mp hsd
      obtain ⟨hc, hstores⟩ := h.done hbusy hop (hallowed hbrr htc op hop hle) hdone hnext
      refine ⟨hc, fun _ _ => ⟨hdelivering, ?_⟩⟩
      rcases initiateNextRead_cases hnext with ⟨-, rfl⟩ | ⟨o, rest, op', -, -, rfl⟩
      · exact hstores
      · exact hstores
  -- the driver acknowledges at most
  · simp only [Option.some_inj, Prod.mk.injEq] at hanswer
    obtain ⟨rfl, rfl⟩ := hanswer
    refine ⟨?_, fun o hdone => absurd ⟨hdone.1, hdone.2.2.2.2.1⟩ htc⟩
    unfold irqHandler at hsd
    split_ifs at hsd with hirq hidle hbrr htc' hcc
    · obtain rfl := Option.some.inj hsd
      exact h
    · obtain rfl := Option.some.inj hsd
      exact h.acknowledged _
    · exact absurd ⟨by simpa using hirq, hbrr⟩ hready
    · exact absurd ⟨by simpa using hirq, htc'⟩ htc
    · obtain rfl := Option.some.inj hsd
      exact h.acknowledged _
    · obtain rfl := Option.some.inj hsd
      exact h

theorem Coherent.construct {disk : Nat → Nat → Nat} {s : System}
    {o destination blocks address : Nat} {callback : Option (List Nat)} (h : Coherent disk s)
    (hallowed : Allowed s (.construct o destination blocks address callback)) :
    Coherent disk { s with sd := construct s.sd o destination blocks address callback } := by
  obtain ⟨⟨hpos, hnone, hdeleted⟩, -, hblocks, haddress⟩ := hallowed
  have hold : ∀ p op, p ≠ o →
      (WagtailTransfer.construct s.sd o destination blocks address callback).op p = some op →
      s.sd.op p = some op := by
    intro p op hpo hop
    simpa [WagtailTransfer.construct, hpo] using hop
  have hother : ∀ p, (∃ op, s.sd.op p = some op) → p ≠ o := by
    rintro p ⟨op, hop⟩ rfl
    rw [hnone] at hop
    cases hop
  refine ⟨h.sound.congr rfl rfl (alive_update o _), fun p hp op hop => ?_, fun p op hop => ?_,
    fun p op hop => ?_, fun x hx hgone => ?_, h.idle, fun hbusy op hop => ?_⟩
  · exact h.waiting p hp op (hold p op (hother p (h.sound.queued p hp).2.2) hop)
  · by_cases hpo : p = o
    · subst hpo
      obtain rfl : newBlockReadOperation destination blocks address callback = op := by
        simpa [WagtailTransfer.construct] using hop
      exact ⟨hblocks, haddress, Nat.zero_le _⟩
    · exact h.words p op (hold p op hpo hop)
  · by_cases hpo : p = o
    · subst hpo
      obtain rfl : newBlockReadOperation destination blocks address callback = op := by
        simpa [WagtailTransfer.construct] using hop
      refine List.filter_eq_nil_iff.mpr fun x hx => ?_
      have hne : x.operation ≠ p := by
        rintro rfl
        exact hdeleted (h.past x hx hnone)
      simpa using hne
    · exact h.stores p op (hold p op hpo hop)
  · by_cases hxo : x.operation = o
    · simp [WagtailTransfer.construct, hxo] at hgone
    · exact h.past x hx (by simpa [WagtailTransfer.construct, hxo] using hgone)
  · have ht := h.busy hbusy op (hold _ op (hother _ (h.sound.active hbusy)) hop)
    exact ⟨ht.commands, ht.commanded, ht.delivered, ht.contiguous⟩

theorem Coherent.step {disk : Nat → Nat → Nat} {s t : System} {e : Event} (h : Coherent disk s)
    (hstep : Step disk s e t) : Coherent disk t := by
  simp only [Step, WagtailTransfer.step, Option.ite_none_right_eq_some] at hstep
  obtain ⟨hallowed, hstep⟩ := hstep
  cases e with
  | construct o destination blocks address callback =>
    obtain rfl := Option.some.inj hstep
    exact h.construct hallowed
  | post o =>
    obtain ⟨sd, hsd, rfl⟩ := Option.map_eq_some_iff.mp hstep
    exact h.postRead hallowed hsd
  | interrupt irq status fifo =>
    obtain ⟨⟨answered, delivering⟩, hanswer, hstep⟩ := Option.bind_eq_some_iff.mp hstep
    obtain ⟨sd, hsd, hstep⟩ := Option.bind_eq_some_iff.mp hstep
    obtain rfl := Option.some.inj hstep
    exact (h.interrupt hallowed hanswer hsd).1

theorem Coherent.run {disk : Nat → Nat → Nat} {s : System} {es : List Event}
    (h : Run (Step disk) .initial es s) : Coherent disk s :=
  h.invariant (coherent_initial disk) fun _ _ _ hc hstep => hc.step hstep

end WagtailTransfer
