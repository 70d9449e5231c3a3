import Wagtail.SchedulerWait

/-!
# Waiting for children

A parent counts its children, and its wait for any of them is answered by the
one that has terminated last before the parent is chosen to run. The C library
asks for any child whatever PID it is given.
-/
namespace WagtailLibrary

open WagtailScheduler

/-- `__syscall_wait`: the system call with its arguments in the registers. -/
def syscallWait (registers : Registers) (pid statLoc block : Nat) (memory : Waitblock) : Event :=
  .wait registers pid statLoc block memory

/-- `wait`. -/
def wait (registers : Registers) (statLoc block : Nat) (memory : Waitblock) : Event :=
  syscallWait registers 0xffffffff statLoc block memory

/-- `waitpid`. -/
def waitpid (registers : Registers) (_pid statLoc _options block : Nat) (memory : Waitblock) :
    Event := syscallWait registers 0xffffffff statLoc block memory

end WagtailLibrary

namespace WagtailScheduler

open WagtailKqueue
open WagtailMmu
open Runs (Run Guarded)

variable {virtualToPhysical : Nat → Nat} {k t : Kernel} {s s' : View} {c p q w : Nat} {a : Action}
  {proc : Process} {b : Waitblock} {exits : List Exit}

/-- The terminations that `c` was told of as a parent. -/
def childExits (c : Nat) (exits : List Exit) : List Exit :=
  exits.filter fun x => .process c ∈ x.listeners

theorem childExits_append (exits more : List Exit) :
    childExits c (exits ++ more) = childExits c exits ++ childExits c more :=
  List.filter_append ..

/-! ## The number of children -/

/-- The children in the list and the terminated ones are what the length counts. -/
structure Counts (s : View) (exits : List Exit) (c : Nat) : Prop where
  live : ∃ parent, s.process c = some parent
  length : ∀ parent, s.process c = some parent → parent.children.length =
    parent.children.elements.length + (childExits c exits).length

/-- One step: what was added to the list, and what has left it. -/
theorem moves_children {parent : Process} (hv : Valid s) (hm : Moves s a s')
    (hc : s.process c = some parent) (hnot : ∀ x ∈ exitsOf s a, x.process ≠ c) :
    (childrenAfter s a c parent.children).length -
        (childrenAfter s a c parent.children).elements.length =
      parent.children.length - parent.children.elements.length +
        (childExits c (exitsOf s a)).length := by
  cases hm with
  | schedule => simp [childrenAfter, exitsOf, childExits]
  | halt => simp [childrenAfter, exitsOf, childExits]
  | putBack => simp [childrenAfter, exitsOf, childExits]
  | run => simp [childrenAfter, exitsOf, childExits]
  | release => simp [childrenAfter, exitsOf, childExits]
  | wait => simp [childrenAfter, exitsOf, childExits]
  | @exit _ _ proc _ _ hcurrent _ _ =>
    by_cases hmem : .process c ∈ proc.terminationListeners.elements
    · have hchild : s.currentProcess ∈ parent.children.elements :=
        hv.kin.parent _ proc hcurrent c hmem parent hc
      have hlength := List.length_erase_of_mem hchild
      have hpos := List.length_pos_of_mem hchild
      simp only [childrenAfter, hcurrent, Option.mem_some_iff, exists_eq_left', hmem, if_true,
        Kqueue.remove, hlength, exitsOf, Option.toList_some, List.map_cons, List.map_nil,
        childExits, List.filter_cons, decide_true, List.filter_nil, List.length_cons,
        List.length_nil]
      omega
    · simp [childrenAfter, hcurrent, hmem, exitsOf, childExits]
  | @fork _ child _ _ _ linked _ _ _ =>
    cases linked with
    | false => simp [childrenAfter, exitsOf, childExits]
    | true =>
      by_cases hcc : c = s.currentProcess
      · simp only [childrenAfter, if_pos hcc, Kqueue.pushFront, List.length_cons, exitsOf,
          childExits, List.filter_nil, List.length_nil]
        omega
      · simp [childrenAfter, hcc, exitsOf, childExits]
  | @abort _ child _ _ _ _ linked _ _ _ _ _ _ =>
    cases linked with
    | false => simp [childrenAfter, exitsOf, childExits]
    | true =>
      by_cases hcc : c = s.currentProcess
      · subst hcc
        simp [childrenAfter, Kqueue.pushFront, Kqueue.remove, exitsOf, childExits]
        omega
      · have hne : s.currentProcess ≠ c := fun h => hcc h.symm
        simp [childrenAfter, hcc, exitsOf, childExits]

theorem moves_counts (hv : Valid s) (hm : Moves s a s') (h : Counts s exits c)
    (hnot : ∀ x ∈ exitsOf s a, x.process ≠ c) : Counts s' (exits ++ exitsOf s a) c := by
  obtain ⟨parent, hparent⟩ := h.live
  obtain ⟨new, hnew, hkeeps⟩ := moves_keeps hm hparent hnot
  refine ⟨⟨new, hnew⟩, fun new' hnew' => ?_⟩
  obtain rfl := Option.some.inj (hnew.symm.trans hnew')
  have hstep := moves_children hv hm hparent hnot
  have hlength := h.length parent hparent
  rw [hkeeps.children, childExits_append, List.length_append]
  push_cast
  omega

/-- The children that are alive. -/
structure AliveChildren (s : View) (c : Nat) (alive : List Nat) : Prop where
  nodup : alive.Nodup
  mem : ∀ p, p ∈ alive ↔
    ∃ proc, s.process p = some proc ∧ .process c ∈ proc.terminationListeners.elements

theorem AliveChildren.length {alive : List Nat} {parent : Process} (h : AliveChildren s c alive)
    (hv : Valid s) (hc : s.process c = some parent) :
    alive.length = parent.children.elements.length := by
  refine List.Perm.length_eq ((List.perm_ext_iff_of_nodup h.nodup
    (hv.kin.family c parent hc).1).mpr fun p => ?_)
  rw [h.mem p]
  constructor
  · rintro ⟨proc, hproc, hlisten⟩
    exact hv.kin.parent p proc hproc c hlisten parent hc
  · intro hp
    exact (hv.kin.child c parent hc p hp).2

/-- The processes that have `c` as a listener. -/
def aliveOf (s : View) (c : Nat) : List Nat :=
  s.candidates.filter fun p =>
    (s.process p).any fun proc => .process c ∈ proc.terminationListeners.elements

theorem Valid.aliveOf (h : Valid s) : AliveChildren s c (aliveOf s c) := by
  refine ⟨h.nodup.filter _, fun p => ?_⟩
  simp only [WagtailScheduler.aliveOf, List.mem_filter, Option.any_eq_true, decide_eq_true_eq]
  constructor
  · rintro ⟨-, proc, hproc, hlisten⟩
    exact ⟨proc, hproc, hlisten⟩
  · rintro ⟨proc, hproc, hlisten⟩
    have hsome : s.process p ≠ none := by simp [hproc]
    exact ⟨(h.live p).mpr hsome, proc, hproc, hlisten⟩

/-- `process::get_num_children`. -/
def Process.getNumChildren (proc : Process) : Int := proc.children.length

/-- The process `c` waits in the block `w` for any child, or has the answer of one there. -/
structure WaitsAny (s : View) (exits : List Exit) (c w statusLoc : Nat) : Prop where
  sleeps : Sleeps s c w w
  block : ∃ b, s.waitblock w = some b ∧ b.AnyChild ∧ b.statusLoc = statusLoc ∧
    b.active = (childExits c exits).isEmpty ∧
    ∀ x, (childExits c exits).getLast? = some x → b.terminatedPid = x.pid ∧ b.exitCode = x.code

/-- A wait for any child blocks if children are counted, and otherwise is refused. -/
theorem wait_any {registers : Registers} {pid statusLoc : Nat} {memory : Waitblock}
    {parent : Process} (hv : Valid s) (hany : pid = 0xffffffff ∨ pid = 0)
    (hc : s.process s.currentProcess = some parent)
    (hm : Moves s (.event (.wait registers pid statusLoc w memory)) s') :
    (parent.getNumChildren ≠ 0 → WaitsAny s' [] s.currentProcess w statusLoc) ∧
    (parent.getNumChildren = 0 → Refused s' s.currentProcess w) := by
  cases hm with
  | @wait _ _ _ _ _ proc b target watch process h0 hw hnone hcurrent hpid hloc hcaller ha hP =>
    obtain rfl := Option.some.inj (hc.symm.trans hcurrent)
    have hanyChild : b.AnyChild := by rwa [Waitblock.AnyChild, hpid]
    have hqueued : s.currentProcess ∈ s.queue ++ [s.currentProcess] :=
      List.mem_append_right _ (List.mem_singleton_self _)
    cases ha with
    | children _ hproc hlen hactive =>
      rw [hcaller] at hproc
      obtain rfl := Option.some.inj (hc.symm.trans hproc)
      refine ⟨fun _ => ⟨⟨hqueued, ⟨_, hP.self, rfl, rfl⟩, hw⟩, b, Function.update_self .., hanyChild,
        hloc, hactive, ?_⟩, fun hzero => absurd hzero hlen⟩
      intro x hx
      cases hx
    | process hnot => exact absurd hanyChild hnot
    | nothing hzero _ hactive hterminated =>
      have hlen := hzero hanyChild parent (by rw [hcaller]; exact hc)
      have hlistener := hv.kin.unlistened hc (hv.running parent hc)
      exact ⟨fun hne => absurd hlen hne, fun _ => ⟨⟨hqueued, ⟨_, hP.self, rfl, hlistener⟩, hw⟩, b,
        Function.update_self .., hactive, hterminated⟩⟩

/-- An action in which `c` does not terminate. -/
def Living (virtualToPhysical : Nat → Nat) (c : Nat) (s : History) (a : Action) (t : History) :
    Prop := HistoryStep virtualToPhysical s a t ∧ ∀ x ∈ exitsOf s.kernel.view a, x.process ≠ c

theorem living_counts {actions : List Action} {s t : History} (hv : Valid s.kernel.view)
    (hcounts : Counts s.kernel.view s.exits c)
    (hrun : Run (Living virtualToPhysical c) s actions t) :
    Valid t.kernel.view ∧ Counts t.kernel.view t.exits c := by
  refine hrun.invariant (I := fun t => Valid t.kernel.view ∧ Counts t.kernel.view t.exits c)
    ⟨hv, hcounts⟩ ?_
  rintro t a u ⟨hv, hcounts⟩ ⟨⟨hstep, -, hexits⟩, hnot⟩
  have hm := step_moves hv hstep
  rw [hexits]
  exact ⟨moves_valid hv hm, moves_counts hv hm hcounts hnot⟩

/-- The number of children is that of the ones alive, and a wait for any child blocks exactly if
one is alive and is refused otherwise. -/
def CountsAlive (virtualToPhysical : Nat → Nat) (t : History) (c : Nat) (alive : List Nat) : Prop :=
  ∃ parent, t.kernel.process c = some parent ∧ parent.getNumChildren = alive.length ∧
    ∀ registers statusLoc w memory u, t.kernel.currentProcess = c →
      HistoryStep virtualToPhysical t
        (.event (.wait registers 0xffffffff statusLoc w memory)) u →
      (alive ≠ [] → isBlocking u.kernel c = some true) ∧ (alive = [] → Refused u.kernel.view c w)

/-! ## Waiting for any child -/

/-- The block of a parent hears of its children and of nothing else. -/
theorem told_iff {x : Exit} (hv : Valid s) (hm : Moves s a s') (h : Sleeps s c w w)
    (hb : s.waitblock w = some b) (hany : b.AnyChild) (hx : x ∈ exitsOf s a) :
    Tells s.process x.listeners w ↔ .process c ∈ x.listeners := by
  obtain ⟨parent, hparent, -, hlistener⟩ := h.block
  refine ⟨fun htells => ?_, fun hmem => .inr ⟨c, parent, hmem, hparent, hlistener, h.nonnull⟩⟩
  obtain hmem | ⟨q, other, hmem, hother, hl, -⟩ := htells
  · obtain hnil | ⟨proc, code, hcurrent, hone⟩ | ⟨y, linked, hone, -, hlisteners⟩ :=
      moves_exit_cases hm
    · simp [hnil] at hx
    · rw [hone, List.mem_singleton] at hx
      subst hx
      obtain ⟨b', hb', -, hnot⟩ := hv.kin.listener _ proc hcurrent w hmem
      exact absurd (Option.some.inj (hb.symm.trans hb') ▸ hany) hnot
    · rw [hone, List.mem_singleton] at hx
      subst hx
      rw [hlisteners] at hmem
      split_ifs at hmem <;> simp at hmem
  · obtain ⟨rfl, -⟩ := h.listener hv hother hl
    exact hmem

/-- A step ends at most one process. -/
theorem childExits_step (hm : Moves s a s') : (childExits c (exitsOf s a)).length ≤ 1 := by
  have hle : (childExits c (exitsOf s a)).length ≤ (exitsOf s a).length := List.length_filter_le ..
  obtain hnil | ⟨_, _, -, hone⟩ | ⟨_, _, hone, -⟩ := moves_exit_cases hm
  · exact hle.trans (by simp [hnil])
  · exact hle.trans (by simp [hone])
  · exact hle.trans (by simp [hone])

theorem moves_waitsAny {statusLoc : Nat} (hv : Valid s) (hm : Moves s a s')
    (h : WaitsAny s exits c w statusLoc) (hcur : s'.currentProcess ≠ c) :
    WaitsAny s' (exits ++ exitsOf s a) c w statusLoc := by
  obtain ⟨htold, huntold⟩ := moves_block hv hm h.sleeps hcur
  obtain ⟨b, hb, hany, hloc, hactive, hlast⟩ := h.block
  refine ⟨moves_sleeps hv hm h.sleeps hcur, ?_⟩
  rw [childExits_append]
  cases hchild : childExits c (exitsOf s a) with
  | nil =>
    have hnot : ∀ x ∈ exitsOf s a, ¬ Tells s.process x.listeners w := by
      intro x hx htells
      have hmem : x ∈ childExits c (exitsOf s a) := List.mem_filter.mpr
        ⟨hx, by simpa using (told_iff hv hm h.sleeps hb hany hx).mp htells⟩
      rw [hchild] at hmem
      cases hmem
    rw [List.append_nil]
    exact ⟨b, by rw [huntold hnot, hb], hany, hloc, hactive, hlast⟩
  | cons x rest =>
    have hx : x ∈ exitsOf s a ∧ .process c ∈ x.listeners := by
      have hmem : x ∈ childExits c (exitsOf s a) := by
        rw [hchild]
        exact List.mem_cons_self
      simpa [childExits] using hmem
    have hone : (childExits c (exitsOf s a)).length ≤ 1 := childExits_step hm
    rw [hchild, List.length_cons] at hone
    have hrest : rest = [] := List.eq_nil_of_length_eq_zero (by omega)
    subst hrest
    refine ⟨b.told x, ?_, hany, hloc, by simp [Waitblock.told], fun y hy => ?_⟩
    · rw [htold x hx.1 ((told_iff hv hm h.sleeps hb hany hx.1).mpr hx.2), hb]
      rfl
    · rw [List.getLast?_append, List.getLast?_singleton, Option.some_or] at hy
      obtain rfl := Option.some.inj hy
      exact ⟨rfl, rfl⟩

/-- A child of `c` with this PID. -/
def Child (s : View) (c p pid : Nat) : Prop :=
  ∃ parent proc, s.process c = some parent ∧ p ∈ parent.children.elements ∧
    s.process p = some proc ∧ proc.pid = pid

/-- The children that have terminated since `s₀` and the ones that are left are different children
of then. -/
structure Brood (s₀ s : View) (exits : List Exit) (c : Nat) : Prop where
  once : ((childExits c exits).map Exit.process).Nodup
  gone : ∀ x ∈ childExits c exits, ∀ pid, ¬ Child s c x.process pid
  told : ∀ x ∈ childExits c exits, Child s₀ c x.process x.pid
  left : ∀ p pid, Child s c p pid → Child s₀ c p pid

theorem brood_start (s : View) (c : Nat) : Brood s s [] c where
  once := .nil
  gone := by simp [childExits]
  told := by simp [childExits]
  left := fun _ _ h => h

/-- What terminates is gone. -/
theorem moves_gone {x : Exit} (hm : Moves s a s') (hx : x ∈ exitsOf s a) :
    s'.process x.process = none := by
  cases hm with
  | exit hcurrent _ ht =>
    simp only [exitsOf, hcurrent, Option.toList_some, List.map_cons, List.map_nil,
      List.mem_singleton] at hx
    rw [hx]
    exact ht.gone
  | abort _ _ _ ht =>
    rw [List.mem_singleton.mp hx]
    exact ht.gone
  | schedule => simp [exitsOf] at hx
  | halt => simp [exitsOf] at hx
  | putBack => simp [exitsOf] at hx
  | run => simp [exitsOf] at hx
  | release => simp [exitsOf] at hx
  | wait => simp [exitsOf] at hx
  | fork => simp [exitsOf] at hx

theorem childrenAfter_subset {children : Kqueue Nat} (hc : c ≠ s.currentProcess) :
    ∀ p ∈ (childrenAfter s a c children).elements, p ∈ children.elements := by
  intro p hp
  unfold childrenAfter at hp
  split at hp
  · split_ifs at hp
    · exact List.mem_of_mem_erase hp
    · exact hp
  · rwa [if_neg hc] at hp
  · rwa [if_neg hc] at hp
  · exact hp

/-- Children only leave a parent that sleeps. -/
theorem moves_child {pid : Nat} (hv : Valid s) (hm : Moves s a s') (hc : c ∈ s.queue)
    (h : Child s' c p pid) : Child s c p pid ∧ ∀ x ∈ exitsOf s a, x.process ≠ p := by
  obtain ⟨parent', proc', hparent', hp, hproc', hpid⟩ := h
  obtain ⟨parent, hparent⟩ := Option.ne_none_iff_exists'.mp (hv.queued hc)
  obtain ⟨new, hnew, hkeeps⟩ := moves_keeps hm hparent (moves_exits hv hm hc)
  obtain rfl := Option.some.inj (hnew.symm.trans hparent')
  have hcur : c ≠ s.currentProcess := fun he => hv.notQueued (he ▸ hc)
  rw [hkeeps.children] at hp
  have hmem := childrenAfter_subset hcur p hp
  obtain ⟨-, proc, hproc, -⟩ := hv.kin.child c parent hparent p hmem
  have hnot : ∀ x ∈ exitsOf s a, x.process ≠ p := by
    rintro x hx rfl
    rw [moves_gone hm hx] at hproc'
    cases hproc'
  obtain ⟨new, hnew, hkeeps'⟩ := moves_keeps hm hproc hnot
  obtain rfl := Option.some.inj (hnew.symm.trans hproc')
  exact ⟨⟨parent, proc, hparent, hmem, hproc, hkeeps'.pid.symm.trans hpid⟩, hnot⟩

/-- What tells a sleeping parent is one of its children. -/
theorem childExits_child {x : Exit} (hv : Valid s) (hm : Moves s a s') (hc : c ∈ s.queue)
    (hx : x ∈ childExits c (exitsOf s a)) : Child s c x.process x.pid := by
  obtain ⟨parent, hparent⟩ := Option.ne_none_iff_exists'.mp (hv.queued hc)
  have hx : x ∈ exitsOf s a ∧ .process c ∈ x.listeners := by simpa [childExits] using hx
  obtain hnil | ⟨proc, code, hcurrent, hone⟩ | ⟨y, linked, hone, -, hlisteners⟩ :=
    moves_exit_cases hm
  · simp [hnil] at hx
  · rw [hone, List.mem_singleton] at hx
    obtain ⟨rfl, hlisten⟩ := hx
    exact ⟨parent, proc, hparent, hv.kin.parent _ proc hcurrent c hlisten parent hparent, hcurrent,
      rfl⟩
  · rw [hone, List.mem_singleton] at hx
    obtain ⟨rfl, hlisten⟩ := hx
    rw [hlisteners] at hlisten
    split_ifs at hlisten
    · obtain rfl : c = s.currentProcess := by simpa using hlisten
      exact absurd hc hv.notQueued
    · simp at hlisten

theorem moves_brood {s₀ : View} (hv : Valid s) (hm : Moves s a s') (hc : c ∈ s.queue)
    (h : Brood s₀ s exits c) : Brood s₀ s' (exits ++ exitsOf s a) c := by
  constructor
  · rw [childExits_append, List.map_append]
    refine List.nodup_append.mpr ⟨h.once, ?_, ?_⟩
    · have hone := childExits_step (c := c) hm
      match hchild : childExits c (exitsOf s a) with
      | [] => exact .nil
      | [x] => simp
      | x :: y :: rest =>
        rw [hchild] at hone
        simp at hone
    · intro p hp q hq hpq
      obtain ⟨x, hx, rfl⟩ := List.mem_map.mp hp
      obtain ⟨y, hy, rfl⟩ := List.mem_map.mp hq
      exact h.gone x hx y.pid (hpq ▸ childExits_child hv hm hc hy)
  · intro x hx pid hchild
    obtain ⟨hbefore, hnot⟩ := moves_child hv hm hc hchild
    rw [childExits_append] at hx
    cases List.mem_append.mp hx with
    | inl hx => exact h.gone x hx pid hbefore
    | inr hx => exact hnot x (List.mem_of_mem_filter hx) rfl
  · intro x hx
    rw [childExits_append] at hx
    cases List.mem_append.mp hx with
    | inl hx => exact h.told x hx
    | inr hx => exact h.left _ _ (childExits_child hv hm hc hx)
  · intro p pid hchild
    exact h.left p pid (moves_child hv hm hc hchild).1

/-- The PID tells which child it was. -/
theorem Brood.first_last {s₀ : View} {x y : Exit} (h : Brood s₀ s exits c) (hv : Valid s₀)
    (hx : (childExits c exits).head? = some x) (hy : (childExits c exits).getLast? = some y)
    (hpid : x.pid = y.pid) : childExits c exits = [x] := by
  obtain ⟨parent, proc, hparent, hp, hproc, hxpid⟩ := h.told x (List.mem_of_head? hx)
  obtain ⟨parent', other, hparent', hq, hother, hypid⟩ := h.told y (List.mem_of_getLast? hy)
  obtain rfl := Option.some.inj (hparent.symm.trans hparent')
  have hsame : x.process = y.process := hv.kin.siblings c parent hparent _ hp _ hq proc hproc other
    hother (hxpid.trans (hpid.trans hypid.symm))
  have honce := h.once
  cases hexits : childExits c exits with
  | nil => simp [hexits] at hx
  | cons z rest =>
    rw [hexits] at hx hy honce
    obtain rfl := Option.some.inj hx
    cases rest with
    | nil => rfl
    | cons u rest =>
      rw [List.getLast?_cons_cons] at hy
      have hmem : y ∈ u :: rest := List.mem_of_getLast? hy
      rw [List.map_cons, List.nodup_cons] at honce
      exact absurd (List.mem_map.mpr ⟨y, hmem, hsame.symm⟩) honce.1

/-! ## Runs -/

/-- An action after which `c` is not the current process. -/
def Dozing (virtualToPhysical : Nat → Nat) (c : Nat) (s : History) (a : Action) (t : History) :
    Prop := HistoryStep virtualToPhysical s a t ∧ t.kernel.currentProcess ≠ c

/-- What holds when the caller has gone to sleep and survives every move that does not choose it,
holds for as long as it sleeps. -/
theorem dozing_invariant {I : View → List Exit → Prop} {actions : List Action} {s t : History}
    (hv : Valid s.kernel.view) (hrun : Run (Dozing virtualToPhysical c) s actions t)
    (start : I s.kernel.view s.exits)
    (keep : ∀ s a s' exits, Valid s → Moves s a s' → I s exits → s'.currentProcess ≠ c →
      I s' (exits ++ exitsOf s a)) : Valid t.kernel.view ∧ I t.kernel.view t.exits := by
  apply hrun.invariant (I := fun t => Valid t.kernel.view ∧ I t.kernel.view t.exits) ⟨hv, start⟩
  rintro t a u ⟨hv, hI⟩ ⟨⟨hstep, -, hexits⟩, hcur⟩
  have hm := step_moves hv hstep
  rw [hexits]
  exact ⟨moves_valid hv hm, keep _ _ _ _ hv hm hI hcur⟩

theorem dozing_waitsAny {actions : List Action} {s t : History} {statusLoc : Nat}
    (hv : Valid s.kernel.view) (hwaits : WaitsAny s.kernel.view [] c w statusLoc)
    (hrun : Run (Dozing virtualToPhysical c) { s with exits := [] } actions t) :
    Valid t.kernel.view ∧ WaitsAny t.kernel.view t.exits c w statusLoc ∧
      Brood s.kernel.view t.kernel.view t.exits c := by
  apply dozing_invariant (s := { s with exits := [] }) (I := fun t exits =>
    WaitsAny t exits c w statusLoc ∧ Brood s.kernel.view t exits c) hv hrun
    ⟨hwaits, brood_start _ c⟩
  rintro t a u exits hv hm ⟨hwaits, hbrood⟩ hcur
  exact ⟨moves_waitsAny hv hm hwaits hcur, moves_brood hv hm hwaits.sleeps.queued hbrood⟩

/-- What a parent gets is what its last child has left. -/
theorem dozing_chosen {t u : History} {statusLoc : Nat} (hv : Valid t.kernel.view)
    (hwaits : WaitsAny t.kernel.view t.exits c w statusLoc)
    (hstep : HistoryStep virtualToPhysical t a u) (hcur : u.kernel.currentProcess = c) :
    ∃ x chosen, (childExits c t.exits).getLast? = some x ∧ u.kernel.process c = some chosen ∧
      chosen.registers.r r0 = x.pid ∧ u.kernel.stores = t.kernel.stores ++
        if statusLoc = 0 then [] else [⟨chosen.addrspace.table, statusLoc, x.code⟩] := by
  obtain ⟨b, chosen, hb, hinactive, hchosen, hr, hstores⟩ :=
    step_chosen hv hstep.1 hwaits.sleeps hcur
  obtain ⟨b', hb', -, hloc, hactive, hlast⟩ := hwaits.block
  obtain rfl := Option.some.inj (hb.symm.trans hb')
  have hsome : childExits c t.exits ≠ [] := by
    intro hnil
    rw [hnil, hinactive] at hactive
    cases hactive
  obtain ⟨x, hx⟩ := Option.ne_none_iff_exists'.mp (mt List.getLast?_eq_none_iff.mp hsome)
  obtain ⟨hpid, hcode⟩ := hlast x hx
  refine ⟨x, chosen, hx, hchosen, hr.trans hpid, ?_⟩
  rw [hstores, hloc, hcode]

/-- The call in which the current process goes to sleep until a child terminates. -/
theorem wait_waitsAny {before after : History} {registers : Registers} {pid statusLoc : Nat}
    {memory : Waitblock} (hv : Valid before.kernel.view) (hany : pid = 0xffffffff ∨ pid = 0)
    (hwait : HistoryStep virtualToPhysical before
      (.event (.wait registers pid statusLoc w memory)) after)
    (hblocked : isBlocking after.kernel before.kernel.currentProcess = some true) :
    WaitsAny after.kernel.view [] before.kernel.currentProcess w statusLoc := by
  obtain ⟨parent, hparent⟩ := hv.current hwait.1.2.1.1.1
  obtain ⟨hblocks, hrefuses⟩ := wait_any hv hany hparent (step_moves hv hwait.1)
  refine hblocks fun hzero => ?_
  have hrefused : Refused after.kernel.view before.kernel.currentProcess w := hrefuses hzero
  obtain ⟨b, hb, hactive, -⟩ := hrefused.block
  rw [isBlocking_sleeps hrefused.sleeps hb, hactive] at hblocked
  cases hblocked

/-! ## Thread 1 and its two children -/

/-- The step of a history in which `c` does not terminate. -/
def livingStep (c : Nat) (s : History) (a : Action) : Option History :=
  (historyStep s a).filter fun _ => decide (∀ x ∈ exitsOf s.kernel.view a, x.process ≠ c)

theorem livingStep_step {s t : History} (h : livingStep c s a = some t) : Living id c s a t := by
  obtain ⟨hstep, hnot⟩ := Option.filter_eq_some_iff.mp h
  exact ⟨historyStep_step hstep, of_decide_eq_true hnot⟩

/-- The step of a history in which `c` is not chosen. -/
def dozingStep (c : Nat) (s : History) (a : Action) : Option History :=
  (historyStep s a).filter fun t => decide (t.kernel.currentProcess ≠ c)

theorem dozingStep_step {s t : History} (h : dozingStep c s a = some t) : Dozing id c s a t := by
  obtain ⟨hstep, hcur⟩ := Option.filter_eq_some_iff.mp h
  exact ⟨historyStep_step hstep, of_decide_eq_true hcur⟩

/-- Process 1 starts to run. -/
def starts : List Action :=
  [.event (.schedule 0x1000 (newUser 1 0x8000)), .event (.interrupt interrupted)]

/-- It forks twice. -/
def forks : List Action :=
  [.fork interrupted 0x2000 (newUser 2 0xa000) true true 0x8000,
    .fork interrupted 0x3000 (newUser 3 0xc000) true true 0x8000]

/-- The first child runs and exits with 7. -/
def exits₁ : List Action :=
  [.event (.interrupt interrupted), .event (.exit interrupted 7)]

/-- It calls the C library's `waitpid` for its second child, or `wait`. -/
def waits : Action :=
  .event (WagtailLibrary.waitpid interrupted 3 0x5000 0 0x4000 ⟨0, 0, 0, 0, 0, false⟩)

/-- The first child exits with 7 while its parent waits. -/
def exitsOnce : List Action := exits₁ ++ [.event (.interrupt interrupted)]

/-- The second one exits with 9 then. -/
def exitsTwice : List Action := exitsOnce ++ [.event (.exit interrupted 9)]

def parentRuns : History :=
  (starts.foldlM historyStep (History.start (initial bootMmu))).get (by decide +kernel)

def parentForked : History :=
  (forks.foldlM (livingStep 0x1000) { parentRuns with exits := [] }).get (by decide +kernel)

/-- The first child has exited. -/
def parentTerminated : History :=
  ((forks ++ exits₁).foldlM (livingStep 0x1000) { parentRuns with exits := [] }).get
    (by decide +kernel)

def parentWaits : History := (historyStep parentForked waits).get (by decide +kernel)

def parentWaited : History := { parentWaits with exits := [] }

def firstLeft : History :=
  (exitsOnce.foldlM (dozingStep 0x1000) parentWaited).get (by decide +kernel)

def bothLeft : History :=
  (exitsTwice.foldlM (dozingStep 0x1000) parentWaited).get (by decide +kernel)

theorem parentRuns_run : Run (HistoryStep id) (History.start (initial bootMmu)) starts parentRuns :=
  Run.of_foldlM (fun _ _ _ => historyStep_step) (Option.some_get _).symm

theorem parentForked_living :
    Run (Living id 0x1000) { parentRuns with exits := [] } forks parentForked :=
  Run.of_foldlM (fun _ _ _ => livingStep_step) (Option.some_get _).symm

theorem parentTerminated_living :
    Run (Living id 0x1000) { parentRuns with exits := [] } (forks ++ exits₁) parentTerminated :=
  Run.of_foldlM (fun _ _ _ => livingStep_step) (Option.some_get _).symm

theorem living_run {more : List Action} {t : History}
    (h : Run (Living id 0x1000) { parentRuns with exits := [] } more t) :
    ∃ actions, Run (HistoryStep id) (History.start (initial bootMmu)) actions t := by
  have hexits : parentRuns.exits = [] := by decide +kernel
  refine h.invariant (I := fun t =>
    ∃ actions, Run (HistoryStep id) (History.start (initial bootMmu)) actions t) ?_ ?_
  · rw [← hexits]
    exact ⟨_, parentRuns_run⟩
  · rintro t a u ⟨actions, hrun⟩ ⟨hstep, -⟩
    exact ⟨_, hrun.snoc hstep⟩

theorem parentWaits_step : HistoryStep id parentForked waits parentWaits :=
  historyStep_step (Option.some_get _).symm

theorem firstLeft_run : Run (Dozing id 0x1000) parentWaited exitsOnce firstLeft :=
  Run.of_foldlM (fun _ _ _ => dozingStep_step) (Option.some_get _).symm

theorem bothLeft_run : Run (Dozing id 0x1000) parentWaited exitsTwice bothLeft :=
  Run.of_foldlM (fun _ _ _ => dozingStep_step) (Option.some_get _).symm

/-- The parent is chosen. -/
def firstChosen : History :=
  (historyStep firstLeft (.event (.interrupt interrupted))).get (by decide +kernel)

def bothChosen : History :=
  (historyStep bothLeft (.event (.interrupt interrupted))).get (by decide +kernel)

theorem firstChosen_step : HistoryStep id firstLeft (.event (.interrupt interrupted)) firstChosen :=
  historyStep_step (Option.some_get _).symm

theorem bothChosen_step : HistoryStep id bothLeft (.event (.interrupt interrupted)) bothChosen :=
  historyStep_step (Option.some_get _).symm

/-- The second child alone exits with 9: the first one is preempted. -/
def secondExits : List Action :=
  [.event (.interrupt interrupted), .event (.interrupt interrupted), .event (.exit interrupted 9)]

def secondLeft : History :=
  (secondExits.foldlM (dozingStep 0x1000) parentWaited).get (by decide +kernel)

def secondChosen : History :=
  (historyStep secondLeft (.event (.interrupt interrupted))).get (by decide +kernel)

theorem secondLeft_run : Run (Dozing id 0x1000) parentWaited secondExits secondLeft :=
  Run.of_foldlM (fun _ _ _ => dozingStep_step) (Option.some_get _).symm

theorem secondChosen_step :
    HistoryStep id secondLeft (.event (.interrupt interrupted)) secondChosen :=
  historyStep_step (Option.some_get _).symm

theorem second_child : Child parentForked.kernel.view 0x1000 0x3000 3 := by
  have hchildren : (parentForked.kernel.view.process 0x1000).map
      (fun proc => proc.children.elements) = some [0x3000, 0x2000] := by decide +kernel
  have hpid : (parentForked.kernel.view.process 0x3000).map Process.pid = some 3 := by
    decide +kernel
  obtain ⟨parent, hparent, helements⟩ := Option.map_eq_some_iff.mp hchildren
  obtain ⟨proc, hproc, hpid⟩ := Option.map_eq_some_iff.mp hpid
  exact ⟨parent, proc, hparent, by simp [helements], hproc, hpid⟩

/-! ## What a parent counts and gets -/

/-- From the making of a process on, its number of children is right exactly as long as no child
of it has terminated. -/
theorem run_children {mmu : Mmu} {actions more : List Action} {before t : History}
    {alive : List Nat}
    (hrun : Run (HistoryStep virtualToPhysical) (History.start (initial mmu)) actions before)
    (hnew : (before.kernel.process c).map Process.children = some .empty)
    (hmore : Run (Living virtualToPhysical c) { before with exits := [] } more t)
    (halive : AliveChildren t.kernel.view c alive) :
    CountsAlive virtualToPhysical t c alive ↔ childExits c t.exits = [] := by
  obtain ⟨parent₀, hparent₀, hempty⟩ := Option.map_eq_some_iff.mp hnew
  have hstart : Counts before.kernel.view [] c := by
    refine ⟨⟨_, bareOf_some hparent₀⟩, fun parent hparent => ?_⟩
    obtain rfl := Option.some.inj ((bareOf_some hparent₀).symm.trans hparent)
    rw [bare_children, hempty]
    rfl
  obtain ⟨hv, hcounts⟩ := living_counts (s := { before with exits := [] }) (run_lives hrun).1
    hstart hmore
  obtain ⟨bare, hbare⟩ := hcounts.live
  obtain ⟨parent, hparent, rfl⟩ := exists_bareOf hbare
  have hlength : parent.getNumChildren = alive.length + (childExits c t.exits).length := by
    have hcount := hcounts.length _ hbare
    rw [halive.length hv hbare]
    exact hcount
  constructor
  · rintro ⟨parent', hparent', hcount, -⟩
    obtain rfl := Option.some.inj (hparent.symm.trans hparent')
    exact List.eq_nil_of_length_eq_zero (by omega)
  · intro hnone
    have hlength : parent.getNumChildren = alive.length := by simpa [hnone] using hlength
    refine ⟨parent, hparent, hlength, fun registers statusLoc w memory u hcur hstep => ?_⟩
    have hcurrent : t.kernel.view.process t.kernel.view.currentProcess = some parent.bare := by
      change t.kernel.view.process t.kernel.currentProcess = _
      rw [hcur]
      exact hbare
    obtain ⟨hblocks, hrefuses⟩ := wait_any hv (.inl rfl) hcurrent (step_moves hv hstep.1)
    change parent.getNumChildren ≠ 0 → WaitsAny _ _ t.kernel.currentProcess _ _ at hblocks
    change parent.getNumChildren = 0 → Refused _ t.kernel.currentProcess _ at hrefuses
    rw [hcur, hlength] at hblocks hrefuses
    constructor
    · intro hne
      have hlen : (alive.length : Int) ≠ 0 := by
        simpa using hne
      obtain ⟨hsleeps, b, hb, -, -, hactive, -⟩ := hblocks hlen
      rw [isBlocking_sleeps hsleeps hb, hactive]
      rfl
    · rintro rfl
      exact hrefuses rfl

/-- The two children of a thread that has forked twice are counted. -/
theorem forked_counted :
    CountsAlive id parentForked 0x1000 (aliveOf parentForked.kernel.view 0x1000) := by
  obtain ⟨_, hrun⟩ := living_run parentForked_living
  exact (run_children parentRuns_run (by decide +kernel) parentForked_living
    (run_lives hrun).1.aliveOf).mpr (by decide +kernel)

/-- It still counts two of them after the first has terminated. -/
theorem terminated_counted : ¬ ∀ (mmu : Mmu) (actions more : List Action) (before t : History)
    (c : Nat) (alive : List Nat),
    Run (HistoryStep id) (History.start (initial mmu)) actions before →
    (before.kernel.process c).map Process.children = some .empty →
    Run (Living id c) { before with exits := [] } more t →
    AliveChildren t.kernel.view c alive → CountsAlive id t c alive := by
  intro hclaim
  obtain ⟨_, hrun⟩ := living_run parentTerminated_living
  obtain ⟨parent, hparent, hnumber, -⟩ := hclaim _ _ _ _ _ 0x1000 _ parentRuns_run
    (by decide +kernel) parentTerminated_living (run_lives hrun).1.aliveOf
  have hcounted : (parentTerminated.kernel.process 0x1000).map Process.getNumChildren = some 2 := by
    decide +kernel
  have halive : aliveOf parentTerminated.kernel.view 0x1000 = [0x3000] := by decide +kernel
  rw [hparent, Option.map_some, Option.some.injEq, hnumber, halive] at hcounted
  exact absurd hcounted (by decide)

/-- The parent has the PID and the exit code of the first child that has terminated. -/
def ReceivesFirst (t u : History) (c statusLoc : Nat) : Prop :=
  ∃ x chosen, (childExits c t.exits).head? = some x ∧ u.kernel.process c = some chosen ∧
    chosen.registers.r r0 = x.pid ∧ u.kernel.stores = t.kernel.stores ++
      if statusLoc = 0 then [] else [⟨chosen.addrspace.table, statusLoc, x.code⟩]

/-- A parent that waits for any child receives the first one exactly if no other child terminates
before the parent is chosen. -/
theorem run_receivesFirst {mmu : Mmu} {actions more : List Action} {before after t u : History}
    {registers : Registers} {statusLoc : Nat} {memory : Waitblock}
    (hrun : Run (HistoryStep virtualToPhysical) (History.start (initial mmu)) actions before)
    (hwait : HistoryStep virtualToPhysical before
      (.event (.wait registers 0xffffffff statusLoc w memory)) after)
    (hblocked : isBlocking after.kernel before.kernel.currentProcess = some true)
    (hmore : Run (Dozing virtualToPhysical before.kernel.currentProcess)
      { after with exits := [] } more t)
    (hstep : HistoryStep virtualToPhysical t a u)
    (hchosen : u.kernel.currentProcess = before.kernel.currentProcess) :
    ReceivesFirst t u before.kernel.currentProcess statusLoc ↔
      (childExits before.kernel.currentProcess t.exits).length ≤ 1 := by
  have hv := (run_lives hrun).1
  have hv' := step_valid hv hwait.1
  obtain ⟨hvt, hwaits, hbrood⟩ :=
    dozing_waitsAny hv' (wait_waitsAny hv (.inl rfl) hwait hblocked) hmore
  obtain ⟨y, chosen, hlast, hprocess, hr, hstores⟩ := dozing_chosen hvt hwaits hstep hchosen
  constructor
  · rintro ⟨x, chosen', hfirst, hprocess', hr', -⟩
    obtain rfl := Option.some.inj (hprocess.symm.trans hprocess')
    rw [hbrood.first_last hv' hfirst hlast (hr'.symm.trans hr)]
    exact le_rfl
  · intro hone
    refine ⟨y, chosen, ?_, hprocess, hr, hstores⟩
    match hexits : childExits before.kernel.currentProcess t.exits with
    | [] => simp [hexits] at hlast
    | [x] => simpa [hexits] using hlast
    | x :: z :: rest =>
      rw [hexits] at hone
      simp at hone

/-- A parent whose first child has terminated gets it. -/
theorem first_received : ReceivesFirst firstLeft firstChosen 0x1000 0x5000 := by
  obtain ⟨_, hrun⟩ := living_run parentForked_living
  have hparent : parentForked.kernel.currentProcess = 0x1000 := by decide +kernel
  have hcur : firstChosen.kernel.currentProcess = 0x1000 := by decide +kernel
  have hreceives := run_receivesFirst hrun parentWaits_step (by decide +kernel)
    (hparent ▸ firstLeft_run) firstChosen_step (hcur.trans hparent.symm)
  rw [hparent] at hreceives
  exact hreceives.mpr (by decide +kernel)

/-- A parent both of whose children have terminated gets the last one. -/
theorem last_received : ¬ ∀ (mmu : Mmu) (actions more : List Action)
    (before after t u : History) (a : Action) (registers : Registers) (statusLoc w : Nat)
    (memory : Waitblock),
    Run (HistoryStep id) (History.start (initial mmu)) actions before →
    HistoryStep id before (.event (.wait registers 0xffffffff statusLoc w memory)) after →
    isBlocking after.kernel before.kernel.currentProcess = some true →
    Run (Dozing id before.kernel.currentProcess) { after with exits := [] } more t →
    HistoryStep id t a u → u.kernel.currentProcess = before.kernel.currentProcess →
    ReceivesFirst t u before.kernel.currentProcess statusLoc := by
  intro hclaim
  obtain ⟨_, hrun⟩ := living_run parentForked_living
  have hparent : parentForked.kernel.currentProcess = 0x1000 := by decide +kernel
  have hcur : bothChosen.kernel.currentProcess = 0x1000 := by decide +kernel
  obtain ⟨x, chosen, hx, hchosen, hr, -⟩ := hclaim _ _ _ _ _ _ _ _ _ _ _ _ hrun parentWaits_step
    (by decide +kernel) (hparent ▸ bothLeft_run) bothChosen_step (hcur.trans hparent.symm)
  rw [hparent] at hx hchosen
  have hfirst : (childExits 0x1000 bothLeft.exits).head?.map Exit.pid = some 2 := by decide +kernel
  have hlast : (bothChosen.kernel.process 0x1000).map (fun proc => proc.registers.r 0) = some 3 := by
    decide +kernel
  rw [hx, Option.map_some, Option.some.injEq] at hfirst
  rw [hchosen, Option.map_some, Option.some.injEq, hr, hfirst] at hlast
  exact absurd hlast (by decide)

/-- The parent was woken by the named child and has its PID and its exit code. -/
def ReceivesNamed (t u : History) (c n pid statusLoc : Nat) : Prop :=
  ∃ x chosen, (childExits c t.exits).head? = some x ∧ x.process = n ∧
    u.kernel.process c = some chosen ∧ chosen.registers.r r0 = pid ∧
    u.kernel.stores = t.kernel.stores ++
      if statusLoc = 0 then [] else [⟨chosen.addrspace.table, statusLoc, x.code⟩]

theorem child_counted {n pid : Nat} (hv : Valid s) (hchild : Child s c n pid) :
    ∀ parent, s.process c = some parent → parent.getNumChildren ≠ 0 := by
  intro parent hparent hzero
  obtain ⟨parent', proc, hparent', hn, -⟩ := hchild
  obtain rfl := Option.some.inj (hparent.symm.trans hparent')
  have hlength := (hv.kin.family c parent hparent).2
  have hpos := List.length_pos_of_mem hn
  have hzero : parent.children.length = 0 := hzero
  omega

/-- The children stay the same in a call that waits. -/
theorem wait_child {registers : Registers} {pid statusLoc n npid : Nat} {memory : Waitblock}
    (hm : Moves s (.event (.wait registers pid statusLoc w memory)) s') (hchild : Child s c n npid) :
    Child s' c n npid := by
  obtain ⟨parent, proc, hparent, hn, hproc, hpid⟩ := hchild
  obtain ⟨parent', hparent', hkeeps⟩ := moves_keeps hm hparent (by simp [exitsOf])
  obtain ⟨proc', hproc', hkeeps'⟩ := moves_keeps hm hproc (by simp [exitsOf])
  refine ⟨parent', proc', hparent', ?_, hproc', hkeeps'.pid.trans hpid⟩
  rw [hkeeps.children]
  exact hn

/-- A call of `waitpid` for a child answers with that child exactly if no other child terminates
before the parent is chosen. -/
theorem run_waitpid {mmu : Mmu} {actions more : List Action} {before after t u : History}
    {registers : Registers} {n pid statLoc options : Nat} {memory : Waitblock}
    (hrun : Run (HistoryStep virtualToPhysical) (History.start (initial mmu)) actions before)
    (hchild : Child before.kernel.view before.kernel.currentProcess n pid)
    (hwait : HistoryStep virtualToPhysical before
      (.event (WagtailLibrary.waitpid registers pid statLoc options w memory)) after)
    (hmore : Run (Dozing virtualToPhysical before.kernel.currentProcess)
      { after with exits := [] } more t)
    (hstep : HistoryStep virtualToPhysical t a u)
    (hchosen : u.kernel.currentProcess = before.kernel.currentProcess) :
    ReceivesNamed t u before.kernel.currentProcess n pid statLoc ↔
      ∀ x ∈ childExits before.kernel.currentProcess t.exits, x.process = n := by
  have hv := (run_lives hrun).1
  have hm := step_moves hv hwait.1
  have hv' := moves_valid hv hm
  obtain ⟨parent, hparent⟩ := hv.current hwait.1.2.1.1.1
  have hwaits : WaitsAny after.kernel.view [] before.kernel.currentProcess w statLoc :=
    (wait_any hv (.inl rfl) hparent hm).1 (child_counted hv hchild parent hparent)
  obtain ⟨hvt, hwaits, hbrood⟩ := dozing_waitsAny hv' hwaits hmore
  obtain ⟨y, chosen, hlast, hprocess, hr, hstores⟩ := dozing_chosen hvt hwaits hstep hchosen
  have hchild' := wait_child hm hchild
  -- the named child has the PID
  have hnamed : ∀ x ∈ childExits before.kernel.currentProcess t.exits, x.process = n →
      x.pid = pid := by
    rintro x hx rfl
    obtain ⟨-, proc, -, -, hproc, hxpid⟩ := hbrood.told x hx
    obtain ⟨-, other, -, -, hother, hnpid⟩ := hchild'
    obtain rfl := Option.some.inj (hproc.symm.trans hother)
    exact hxpid.symm.trans hnpid
  constructor
  · rintro ⟨x, chosen', hfirst, hxn, hprocess', hr', -⟩
    obtain rfl := Option.some.inj (hprocess.symm.trans hprocess')
    have hxpid := hnamed x (List.mem_of_head? hfirst) hxn
    rw [hbrood.first_last hv' hfirst hlast (hxpid.trans (hr'.symm.trans hr))]
    rintro z hz
    rwa [List.mem_singleton.mp hz]
  · intro hall
    have hyn := hall y (List.mem_of_getLast? hlast)
    have hypid := hnamed y (List.mem_of_getLast? hlast) hyn
    refine ⟨y, chosen, ?_, hyn, hprocess, hr.trans hypid, hstores⟩
    match hexits : childExits before.kernel.currentProcess t.exits with
    | [] => simp [hexits] at hlast
    | [x] => simpa [hexits] using hlast
    | x :: z :: rest =>
      have honce := hbrood.once
      rw [hexits] at hall honce
      have hsame : x.process = z.process := (hall x (by simp)).trans (hall z (by simp)).symm
      simp [hsame] at honce

/-- A parent whose second child has terminated gets it from `waitpid`. -/
theorem named_received : ReceivesNamed secondLeft secondChosen 0x1000 0x3000 3 0x5000 := by
  obtain ⟨_, hrun⟩ := living_run parentForked_living
  have hparent : parentForked.kernel.currentProcess = 0x1000 := by decide +kernel
  have hcur : secondChosen.kernel.currentProcess = 0x1000 := by decide +kernel
  have hreceives := run_waitpid hrun (hparent ▸ second_child) parentWaits_step
    (hparent ▸ secondLeft_run) secondChosen_step (hcur.trans hparent.symm)
  rw [hparent] at hreceives
  exact hreceives.mpr (by decide +kernel)

/-- A parent whose first child has terminated gets that one from `waitpid` for the second. -/
theorem other_received : ¬ ∀ (mmu : Mmu) (actions more : List Action)
    (before after t u : History) (a : Action) (registers : Registers)
    (n pid statLoc options w : Nat) (memory : Waitblock),
    Run (HistoryStep id) (History.start (initial mmu)) actions before → 0 < pid →
    Child before.kernel.view before.kernel.currentProcess n pid →
    HistoryStep id before
      (.event (WagtailLibrary.waitpid registers pid statLoc options w memory)) after →
    Run (Dozing id before.kernel.currentProcess) { after with exits := [] } more t →
    HistoryStep id t a u → u.kernel.currentProcess = before.kernel.currentProcess →
    ReceivesNamed t u before.kernel.currentProcess n pid statLoc := by
  intro hclaim
  obtain ⟨_, hrun⟩ := living_run parentForked_living
  have hparent : parentForked.kernel.currentProcess = 0x1000 := by decide +kernel
  have hcur : firstChosen.kernel.currentProcess = 0x1000 := by decide +kernel
  obtain ⟨x, chosen, -, -, hchosen, hr, -⟩ := hclaim _ _ _ _ _ _ _ _ _ 0x3000 3 _ _ _ _ hrun
    (by decide) (hparent ▸ second_child) parentWaits_step (hparent ▸ firstLeft_run)
    firstChosen_step (hcur.trans hparent.symm)
  have hfirst : (firstChosen.kernel.process 0x1000).map (fun proc => proc.registers.r 0) =
      some 2 := by decide +kernel
  rw [hparent] at hchosen
  rw [hchosen, Option.map_some, Option.some.injEq, hr] at hfirst
  exact absurd hfirst (by decide)

end WagtailScheduler
