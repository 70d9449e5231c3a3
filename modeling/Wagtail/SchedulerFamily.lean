import Wagtail.SchedulerFork

/-!
# Families of processes

Processes without their registers and exit codes, the wait blocks, and how they
point to each other: a child tells its parent when it terminates and is in the
parent's list, a process tells the blocks that wait for it, and a block that
waits for any child is told by the parent. One lemma for each way in which the
scheduler changes these pointers.
-/
namespace WagtailScheduler

open WagtailKqueue

variable {P P' : Nat → Option Process} {B B' : Nat → Option Waitblock}
  {c p q w : Nat} {proc : Process} {b : Waitblock}

/-! ## Processes without their context -/

/-- The process without its registers and its exit code. -/
def Process.bare (proc : Process) : Process :=
  { proc with registers := ⟨fun _ => 0, 0, 0⟩, exitCode := 0 }

@[simp] theorem bare_pid (proc : Process) : proc.bare.pid = proc.pid := rfl
@[simp] theorem bare_block (proc : Process) : proc.bare.block = proc.block := rfl
@[simp] theorem bare_addrspace (proc : Process) : proc.bare.addrspace = proc.addrspace := rfl
@[simp] theorem bare_children (proc : Process) : proc.bare.children = proc.children := rfl
@[simp] theorem bare_listeners (proc : Process) :
    proc.bare.terminationListeners = proc.terminationListeners := rfl
@[simp] theorem bare_childTerminationListener (proc : Process) :
    proc.bare.childTerminationListener = proc.childTerminationListener := rfl

/-- The block waits for any child. -/
def Waitblock.AnyChild (b : Waitblock) : Prop := b.waitpid = 0xffffffff ∨ b.waitpid = 0

/-- Parents and children point to each other, and the children of a parent have different
PIDs. -/
structure Family (P : Nat → Option Process) : Prop where
  null : P 0 = none
  child : ∀ c parent, P c = some parent → ∀ p ∈ parent.children.elements,
    p ≠ c ∧ ∃ proc, P p = some proc ∧ .process c ∈ proc.terminationListeners.elements
  parent : ∀ p proc, P p = some proc → ∀ c, .process c ∈ proc.terminationListeners.elements →
    ∀ parent, P c = some parent → p ∈ parent.children.elements
  family : ∀ c parent, P c = some parent → parent.children.elements.Nodup ∧
    (parent.children.elements.length : Int) ≤ parent.children.length
  siblings : ∀ c parent, P c = some parent → ∀ p ∈ parent.children.elements,
    ∀ q ∈ parent.children.elements, ∀ proc, P p = some proc → ∀ other, P q = some other →
      proc.pid = other.pid → p = q

/-- The pointers between processes and blocks fit together. -/
structure Kin (P : Nat → Option Process) (B : Nat → Option Waitblock) : Prop extends
    Family P where
  block : ∀ p proc, P p = some proc → proc.block ≠ 0 →
    ∃ b, B proc.block = some b ∧ b.caller = p
  childListener : ∀ p proc, P p = some proc → proc.childTerminationListener ≠ 0 →
    proc.childTerminationListener = proc.block ∧ ∃ b, B proc.block = some b ∧ b.AnyChild
  listener : ∀ p proc, P p = some proc → ∀ w, .waitblock w ∈ proc.terminationListeners.elements →
    ∃ b, B w = some b ∧ b.active = true ∧ ¬ b.AnyChild
  unique : ∀ p proc, P p = some proc → ∀ q other, P q = some other →
    ∀ w, .waitblock w ∈ proc.terminationListeners.elements →
      .waitblock w ∈ other.terminationListeners.elements → p = q
  once : ∀ p proc, P p = some proc → proc.terminationListeners.elements.Nodup

/-- Families do not depend on blocks. -/
theorem Family.congr (h : Family P) (hlive : ∀ p proc, P p = some proc → ∃ proc', P' p = some proc')
    (hsame : ∀ p proc', P' p = some proc' → ∃ proc, P p = some proc ∧ proc'.pid = proc.pid ∧
      proc'.children = proc.children ∧ ∀ c, .process c ∈ proc'.terminationListeners.elements ↔
        .process c ∈ proc.terminationListeners.elements) : Family P' := by
  constructor
  · by_contra hne
    obtain ⟨proc', hproc'⟩ := Option.ne_none_iff_exists'.mp hne
    obtain ⟨proc, hproc, -⟩ := hsame 0 proc' hproc'
    rw [h.null] at hproc
    cases hproc
  · intro q parent' hq p hp
    obtain ⟨parent, hparent, -, hchildren, -⟩ := hsame q parent' hq
    rw [hchildren] at hp
    obtain ⟨hpq, old, hold, hlisten⟩ := h.child q parent hparent p hp
    obtain ⟨proc', hproc'⟩ := hlive p old hold
    obtain ⟨old', hold', -, -, hls⟩ := hsame p proc' hproc'
    obtain rfl := Option.some.inj (hold.symm.trans hold')
    exact ⟨hpq, proc', hproc', (hls q).mpr hlisten⟩
  · intro p proc' hp q hq parent' hparent'
    obtain ⟨old, hold, -, -, hls⟩ := hsame p proc' hp
    obtain ⟨parent, hparent, -, hchildren, -⟩ := hsame q parent' hparent'
    rw [hchildren]
    exact h.parent p old hold q ((hls q).mp hq) parent hparent
  · intro q parent' hq
    obtain ⟨parent, hparent, -, hchildren, -⟩ := hsame q parent' hq
    rw [hchildren]
    exact h.family q parent hparent
  · intro q parent' hq p hp r hr proc' hproc' other' hother' hpid
    obtain ⟨parent, hparent, -, hchildren, -⟩ := hsame q parent' hq
    obtain ⟨old, hold, hpid₁, -⟩ := hsame p proc' hproc'
    obtain ⟨other, hother, hpid₂, -⟩ := hsame r other' hother'
    rw [hchildren] at hp hr
    rw [hpid₁, hpid₂] at hpid
    exact h.siblings q parent hparent p hp r hr old hold other hother hpid

theorem kin_empty : Kin (fun _ => none) B := by
  refine ⟨⟨?_, ?_, ?_, ?_, ?_⟩, ?_, ?_, ?_, ?_, ?_⟩ <;> simp

theorem Kin.ne_zero (h : Kin P B) (hp : P p = some proc) : p ≠ 0 := by
  rintro rfl
  rw [h.null] at hp
  cases hp

/-- Nothing listens to its own termination. -/
theorem Kin.not_own (h : Kin P B) (hp : P p = some proc) :
    .process p ∉ proc.terminationListeners.elements := fun hmem =>
  (h.child p proc hp p (h.parent p proc hp p hmem proc hp)).1 rfl

/-- A process that does not wait hears of no children. -/
theorem Kin.unlistened (h : Kin P B) (hp : P p = some proc) (hblock : proc.block = 0) :
    proc.childTerminationListener = 0 := by
  by_contra hne
  obtain ⟨heq, -⟩ := h.childListener p proc hp hne
  exact hne (heq.trans hblock)

theorem Kin.fresh (h : Kin P B) (hw : B w = none) (hp : P p = some proc) :
    .waitblock w ∉ proc.terminationListeners.elements := by
  intro hmem
  obtain ⟨b, hb, -⟩ := h.listener p proc hp w hmem
  rw [hw] at hb
  cases hb

/-! ## A new process -/

/-- Where a process of an updated table comes from. -/
theorem update_cases {proc' : Process} (h : Function.update P c (some proc) p = some proc') :
    p = c ∧ proc' = proc ∨ p ≠ c ∧ P p = some proc' := by
  by_cases hp : p = c
  · subst hp
    rw [Function.update_self] at h
    exact .inl ⟨rfl, (Option.some.inj h).symm⟩
  · rw [Function.update_of_ne hp] at h
    exact .inr ⟨hp, h⟩

theorem Kin.add (h : Kin P B) (hc : c ≠ 0) (hnone : P c = none) (hproc : proc.Constructed)
    (hunheard : ∀ p proc, P p = some proc → .process c ∉ proc.terminationListeners.elements) :
    Kin (Function.update P c (some proc)) B := by
  obtain ⟨hblock, hchildren, hlisteners, hlistener⟩ := hproc
  have hempty : proc.terminationListeners.elements = [] := by rw [hlisteners]; rfl
  have hnochild : proc.children.elements = [] := by rw [hchildren]; rfl
  have hlength : proc.children.length = 0 := by rw [hchildren]; rfl
  have hne : ∀ p other, P p = some other → p ≠ c := by
    rintro p other hp rfl
    rw [hnone] at hp
    cases hp
  have hkeep : ∀ p other, P p = some other → Function.update P c (some proc) p = some other :=
    fun p other hp => by rw [Function.update_of_ne (hne p other hp), hp]
  constructor
  · constructor
    · rw [Function.update_of_ne hc.symm]
      exact h.null
    · intro q parent hq p hp
      obtain ⟨-, rfl⟩ | ⟨-, hq⟩ := update_cases hq
      · simp [hnochild] at hp
      · obtain ⟨hpq, other, hother, hmem⟩ := h.child q parent hq p hp
        exact ⟨hpq, other, hkeep p other hother, hmem⟩
    · intro p other hp q hq parent hparent
      obtain ⟨-, rfl⟩ | ⟨-, hp'⟩ := update_cases hp
      · simp [hempty] at hq
      · obtain ⟨rfl, -⟩ | ⟨-, hparent'⟩ := update_cases hparent
        · exact absurd hq (hunheard p other hp')
        · exact h.parent p other hp' q hq parent hparent'
    · intro q parent hq
      obtain ⟨-, rfl⟩ | ⟨-, hq⟩ := update_cases hq
      · simp [hnochild, hlength]
      · exact h.family q parent hq
    · intro q parent hq p hp r hr other hother another hanother hpid
      obtain ⟨-, rfl⟩ | ⟨-, hq⟩ := update_cases hq
      · simp [hnochild] at hp
      · obtain ⟨-, other', hother', -⟩ := h.child q parent hq p hp
        obtain ⟨-, another', hanother', -⟩ := h.child q parent hq r hr
        rw [hkeep p other' hother'] at hother
        rw [hkeep r another' hanother'] at hanother
        obtain rfl := Option.some.inj hother
        obtain rfl := Option.some.inj hanother
        exact h.siblings q parent hq p hp r hr other' hother' another' hanother' hpid
  · intro p other hp h0
    obtain ⟨-, rfl⟩ | ⟨-, hp⟩ := update_cases hp
    · exact absurd hblock h0
    · exact h.block p other hp h0
  · intro p other hp h0
    obtain ⟨-, rfl⟩ | ⟨-, hp⟩ := update_cases hp
    · exact absurd hlistener h0
    · exact h.childListener p other hp h0
  · intro p other hp w hw
    obtain ⟨-, rfl⟩ | ⟨-, hp⟩ := update_cases hp
    · simp [hempty] at hw
    · exact h.listener p other hp w hw
  · intro p other hp q another hq w hw hw'
    obtain ⟨-, rfl⟩ | ⟨-, hp⟩ := update_cases hp
    · simp [hempty] at hw
    · obtain ⟨-, rfl⟩ | ⟨-, hq⟩ := update_cases hq
      · simp [hempty] at hw'
      · exact h.unique p other hp q another hq w hw hw'
  · intro p other hp
    obtain ⟨-, rfl⟩ | ⟨-, hp⟩ := update_cases hp
    · rw [hempty]
      exact .nil
    · exact h.once p other hp

/-- The processes after `c` has adopted `p`: every one is an old one, up to the listener of the child
and the list of its parent. -/
structure Adopts (P P' : Nat → Option Process) (p c : Nat) (proc parent : Process) : Prop where
  adopted : P p = some proc ∧ proc.terminationListeners.elements = []
  adopts : P c = some parent
  distinct : p ≠ c
  live : ∀ q other, P q = some other → ∃ other', P' q = some other'
  old : ∀ q other', P' q = some other' → ∃ other, P q = some other ∧ other'.pid = other.pid ∧
    other'.block = other.block ∧
    other'.childTerminationListener = other.childTerminationListener ∧
    other'.terminationListeners.elements =
      (if q = p then [.process c] else other.terminationListeners.elements) ∧
    other'.children = if q = c then parent.children.pushFront p else other.children

theorem adopts_update {parent : Process} (hpc : p ≠ c) (hproc : P p = some proc)
    (hparent : P c = some parent) (hlisteners : proc.terminationListeners.elements = []) :
    Adopts P (Function.update (Function.update P p (some (proc.addTerminationListener (.process c))))
      c (some { parent with children := parent.children.pushFront p })) p c proc parent := by
  set child := proc.addTerminationListener (.process c) with hchild
  set father : Process := { parent with children := parent.children.pushFront p } with hfather
  have hlist : child.terminationListeners.elements = [.process c] := by
    rw [hchild, Process.addTerminationListener, Kqueue.pushFront, hlisteners]
  refine ⟨⟨hproc, hlisteners⟩, hparent, hpc, fun q other hq => ?_, fun q other' hq => ?_⟩
  · by_cases hqc : q = c
    · subst hqc
      exact ⟨father, by simp⟩
    · by_cases hqp : q = p
      · subst hqp
        exact ⟨child, by simp [hqc]⟩
      · exact ⟨other, by simp [hqc, hqp, hq]⟩
  · obtain ⟨rfl, rfl⟩ | ⟨hqc, hq⟩ := update_cases hq
    · exact ⟨parent, hparent, rfl, rfl, rfl, by rw [if_neg hpc.symm], by rw [if_pos rfl]⟩
    · obtain ⟨rfl, rfl⟩ | ⟨hqp, hq⟩ := update_cases hq
      · exact ⟨proc, hproc, rfl, rfl, rfl, by rw [if_pos rfl, hlist], by rw [if_neg hpc]; rfl⟩
      · exact ⟨other', hq, rfl, rfl, rfl, by rw [if_neg hqp], by rw [if_neg hqc]⟩

section

variable {P' : Nat → Option Process} {parent : Process}

/-- Who listens to a process did so before, or is the parent. -/
theorem Adopts.listens (h : Adopts P P' p c proc parent) {q : Nat} {other' : Process}
    {e : Listener} (hq : P' q = some other')
    (he : e ∈ other'.terminationListeners.elements) : q = p ∧ e = .process c ∨
      ∃ other, P q = some other ∧ e ∈ other.terminationListeners.elements := by
  obtain ⟨other, hother, -, -, -, hls, -⟩ := h.old q other' hq
  by_cases hqp : q = p
  · rw [hls, if_pos hqp, List.mem_singleton] at he
    exact .inl ⟨hqp, he⟩
  · rw [hls, if_neg hqp] at he
    exact .inr ⟨other, hother, he⟩

/-- Who is in a list was there before, or is the child in the list of its parent. -/
theorem Adopts.lists (h : Adopts P P' p c proc parent) {q r : Nat} {other' : Process}
    (hq : P' q = some other') (hr : r ∈ other'.children.elements) : q = c ∧ r = p ∨
      ∃ other, P q = some other ∧ r ∈ other.children.elements := by
  obtain ⟨other, hother, -, -, -, -, hchildren⟩ := h.old q other' hq
  rw [hchildren] at hr
  split_ifs at hr with hqc
  · subst hqc
    obtain rfl := Option.some.inj (h.adopts.symm.trans hother)
    cases List.mem_cons.mp hr with
    | inl hr => exact .inl ⟨rfl, hr⟩
    | inr hr => exact .inr ⟨parent, hother, hr⟩
  · exact .inr ⟨other, hother, hr⟩

theorem Adopts.list (h : Adopts P P' p c proc parent) {other' : Process} (hc : P' c = some other') :
    other'.children = parent.children.pushFront p := by
  obtain ⟨other, hother, -, -, -, -, hchildren⟩ := h.old c other' hc
  rw [hchildren, if_pos rfl]

/-- The PIDs in a list stay different if the child has another one than its siblings. -/
theorem Adopts.siblings (h : Adopts P P' p c proc parent) (hfamily : Family P)
    (hpid : ∀ q ∈ parent.children.elements, ∀ other, P q = some other → other.pid ≠ proc.pid)
    {q r s : Nat} {other' first' second' : Process} (hq : P' q = some other')
    (hr : r ∈ other'.children.elements) (hs : s ∈ other'.children.elements)
    (hfirst : P' r = some first') (hsecond : P' s = some second')
    (hsame : first'.pid = second'.pid) : r = s := by
  obtain ⟨other, hother, -⟩ := h.old q other' hq
  obtain ⟨first, hold₁, hpid₁, -⟩ := h.old r first' hfirst
  obtain ⟨second, hold₂, hpid₂, -⟩ := h.old s second' hsecond
  rw [hpid₁, hpid₂] at hsame
  have hnew : ∀ r' first, q = c → (∃ other, P q = some other ∧ r' ∈ other.children.elements) →
      P r' = some first → first.pid ≠ proc.pid := by
    rintro r' first rfl ⟨other, hother, hr'⟩ hfirst
    obtain rfl := Option.some.inj (h.adopts.symm.trans hother)
    exact hpid r' hr' first hfirst
  obtain ⟨hqc, hrp⟩ | hr := h.lists hq hr
  · obtain ⟨-, hsp⟩ | hs := h.lists hq hs
    · rw [hrp, hsp]
    · rw [hrp] at hold₁
      obtain rfl := Option.some.inj (h.adopted.1.symm.trans hold₁)
      exact absurd hsame.symm (hnew s second hqc hs hold₂)
  · obtain ⟨hqc, hsp⟩ | hs := h.lists hq hs
    · rw [hsp] at hold₂
      obtain rfl := Option.some.inj (h.adopted.1.symm.trans hold₂)
      exact absurd hsame (hnew r first hqc hr hold₁)
    · obtain ⟨other₁, hother₁, hr⟩ := hr
      obtain ⟨other₂, hother₂, hs⟩ := hs
      obtain rfl := Option.some.inj (hother₁.symm.trans hother₂)
      exact hfamily.siblings q other₁ hother₁ r hr s hs first hold₁ second hold₂ hsame

theorem Adopts.family (h : Adopts P P' p c proc parent) (hfamily : Family P)
    (hpid : ∀ q ∈ parent.children.elements, ∀ other, P q = some other → other.pid ≠ proc.pid) :
    Family P' := by
  obtain ⟨hproc, hlisteners⟩ := h.adopted
  have hnew : p ∉ parent.children.elements := by
    intro hmem
    obtain ⟨-, proc', hproc', hlisten⟩ := hfamily.child c parent h.adopts p hmem
    obtain rfl := Option.some.inj (hproc.symm.trans hproc')
    simp [hlisteners] at hlisten
  constructor
  · by_contra hne
    obtain ⟨other', hother'⟩ := Option.ne_none_iff_exists'.mp hne
    obtain ⟨other, hother, -⟩ := h.old 0 other' hother'
    rw [hfamily.null] at hother
    cases hother
  · intro q other' hq r hr
    obtain ⟨rfl, rfl⟩ | ⟨other, hother, hr⟩ := h.lists hq hr
    · obtain ⟨child, hchild⟩ := h.live r proc hproc
      obtain ⟨other, -, -, -, -, hls, -⟩ := h.old r child hchild
      exact ⟨h.distinct, child, hchild, by simp [hls]⟩
    · obtain ⟨hrq, another, hanother, hlisten⟩ := hfamily.child q other hother r hr
      obtain ⟨another', hanother'⟩ := h.live r another hanother
      obtain ⟨old, hold, -, -, -, hls, -⟩ := h.old r another' hanother'
      obtain rfl := Option.some.inj (hanother.symm.trans hold)
      have hrp : r ≠ p := by
        rintro rfl
        obtain rfl := Option.some.inj (hproc.symm.trans hanother)
        simp [hlisteners] at hlisten
      refine ⟨hrq, another', hanother', ?_⟩
      rwa [hls, if_neg hrp]
  · intro q other' hq r hr father' hfather'
    obtain ⟨rfl, he⟩ | ⟨other, hother, hr⟩ := h.listens hq hr
    · obtain rfl : r = c := by simpa using he
      rw [h.list hfather']
      exact List.mem_cons_self
    · obtain ⟨old, hold, -, -, -, -, hchildren⟩ := h.old r father' hfather'
      have hin := hfamily.parent q other hother r hr old hold
      rw [hchildren]
      split_ifs with hrc
      · subst hrc
        obtain rfl := Option.some.inj (h.adopts.symm.trans hold)
        exact List.mem_cons_of_mem _ hin
      · exact hin
  · intro q other' hq
    obtain ⟨other, hother, -, -, -, -, hchildren⟩ := h.old q other' hq
    have hcount := hfamily.family q other hother
    rw [hchildren]
    split_ifs with hqc
    · subst hqc
      obtain rfl := Option.some.inj (h.adopts.symm.trans hother)
      refine ⟨List.nodup_cons.mpr ⟨hnew, hcount.1⟩, ?_⟩
      have hlen := hcount.2
      simp only [Kqueue.pushFront, List.length_cons]
      omega
    · exact hcount
  · intro q other' hq r hr s hs first' hfirst second' hsecond hsame
    exact h.siblings hfamily hpid hq hr hs hfirst hsecond hsame

end

/-- The parent listens to a child and has it in its list. -/
theorem Kin.adopt (h : Kin P B) (parent : Process) (hpc : p ≠ c) (hproc : P p = some proc)
    (hparent : P c = some parent) (hlisteners : proc.terminationListeners.elements = [])
    (hpid : ∀ q ∈ parent.children.elements, ∀ other, P q = some other → other.pid ≠ proc.pid) :
    Kin (Function.update (Function.update P p (some (proc.addTerminationListener (.process c))))
      c (some { parent with children := parent.children.pushFront p })) B := by
  have hadopts := adopts_update hpc hproc hparent hlisteners
  constructor
  · exact hadopts.family h.toFamily hpid
  · intro q other' hq h0
    obtain ⟨other, hother, -, hb, -⟩ := hadopts.old q other' hq
    rw [hb] at h0 ⊢
    exact h.block q other hother h0
  · intro q other' hq h0
    obtain ⟨other, hother, -, hb, hl, -⟩ := hadopts.old q other' hq
    rw [hl] at h0 ⊢
    rw [hb]
    exact h.childListener q other hother h0
  · intro q other' hq w hw
    obtain ⟨-, he⟩ | ⟨other, hother, hw⟩ := hadopts.listens hq hw
    · cases he
    · exact h.listener q other hother w hw
  · intro q other' hq r another' hr w hw hw'
    obtain ⟨-, he⟩ | ⟨other, hother, hw⟩ := hadopts.listens hq hw
    · cases he
    · obtain ⟨-, he⟩ | ⟨another, hanother, hw'⟩ := hadopts.listens hr hw'
      · cases he
      · exact h.unique q other hother r another hanother w hw hw'
  · intro q other' hq
    obtain ⟨other, hother, -, -, -, hls, -⟩ := hadopts.old q other' hq
    rw [hls]
    split
    · simp
    · exact h.once q other hother

/-! ## A termination -/

/-- The child is taken out of the list. -/
def Process.removeChild (proc : Process) (child : Nat) : Process :=
  { proc with children := proc.children.remove child }

/-- The block is told about the termination of a process with these listeners: it waits for the
process, or it waits for any child of a listening parent. -/
def Tells (P : Nat → Option Process) (listeners : List Listener) (w : Nat) : Prop :=
  .waitblock w ∈ listeners ∨ ∃ c parent, .process c ∈ listeners ∧ P c = some parent ∧
    parent.childTerminationListener = w ∧ w ≠ 0

/-- The process `c` has terminated, with this PID and exit code. -/
structure Terminated (P P' : Nat → Option Process) (B B' : Nat → Option Waitblock) (c : Nat)
    (terminated : Process) (listeners : List Listener) : Prop where
  gone : P' c = none
  parent : ∀ q, q ≠ c → .process q ∈ listeners → P' q = (P q).map (·.removeChild c)
  other : ∀ q, q ≠ c → .process q ∉ listeners → P' q = P q
  told : ∀ w, Tells P listeners w → B' w = (B w).map (·.processTerminated terminated)
  untold : ∀ w, ¬ Tells P listeners w → B' w = B w

/-- What a block that is told keeps. -/
theorem Terminated.block {terminated : Process} {listeners : List Listener}
    (h : Terminated P P' B B' c terminated listeners) (hw : B w = some b) :
    ∃ b', B' w = some b' ∧ b'.caller = b.caller ∧ b'.waitpid = b.waitpid ∧
      b'.statusLoc = b.statusLoc := by
  by_cases htells : Tells P listeners w
  · exact ⟨b.processTerminated terminated, by rw [h.told w htells, hw]; rfl, rfl, rfl, rfl⟩
  · exact ⟨b, by rw [h.untold w htells, hw], rfl, rfl, rfl⟩

/-- The processes that are left are the old ones, up to their children. -/
theorem Terminated.process {terminated : Process} {listeners : List Listener} {proc' : Process}
    (h : Terminated P P' B B' c terminated listeners) (hp : P' p = some proc') :
    p ≠ c ∧ ∃ proc, P p = some proc ∧
      proc' = if .process p ∈ listeners then proc.removeChild c else proc := by
  have hpc : p ≠ c := by
    rintro rfl
    rw [h.gone] at hp
    cases hp
  refine ⟨hpc, ?_⟩
  by_cases hmem : .process p ∈ listeners
  · rw [h.parent p hpc hmem] at hp
    obtain ⟨proc, hproc, rfl⟩ := Option.map_eq_some_iff.mp hp
    exact ⟨proc, hproc, by rw [if_pos hmem]⟩
  · rw [h.other p hpc hmem] at hp
    exact ⟨proc', hp, by rw [if_neg hmem]⟩

/-- A block that a process waits in with a listener is not told by another's termination. -/
theorem Kin.untold (h : Kin P B) {terminated : Process} (hc : P c = some terminated)
    (hp : P p = some proc) (hpc : p ≠ c) (hw : .waitblock w ∈ proc.terminationListeners.elements) :
    ¬ Tells P terminated.terminationListeners.elements w := by
  rintro (hmem | ⟨q, parent, -, hq, hlistener, hw0⟩)
  · exact hpc (h.unique p proc hp c terminated hc w hw hmem)
  · obtain ⟨b, hb, -, hnot⟩ := h.listener p proc hp w hw
    obtain ⟨hblock, b', hb', hany⟩ := h.childListener q parent hq (hlistener ▸ hw0)
    rw [← hblock, hlistener, hb] at hb'
    exact hnot (Option.some.inj hb' ▸ hany)

/-- What a process keeps when `c` terminates: all but `c` in its list of children. -/
structure Survives (P : Nat → Option Process) (c p : Nat) (proc proc' : Process) : Prop where
  ne : p ≠ c
  old : P p = some proc
  pid : proc'.pid = proc.pid
  block : proc'.block = proc.block
  childListener : proc'.childTerminationListener = proc.childTerminationListener
  listeners : proc'.terminationListeners = proc.terminationListeners
  children : ∀ q, q ∈ proc'.children.elements ↔ q ∈ proc.children.elements ∧ q ≠ c
  nodup : proc'.children.elements.Nodup
  length : (proc'.children.elements.length : Int) ≤ proc'.children.length

theorem Terminated.survives {terminated record : Process} {proc' : Process} (h : Family P)
    (hc : P c = some terminated)
    (ht : Terminated P P' B B' c record terminated.terminationListeners.elements)
    (hp' : P' p = some proc') : ∃ proc, Survives P c p proc proc' := by
  obtain ⟨hpc, proc, hp, rfl⟩ := ht.process hp'
  obtain ⟨hnodup, hlen⟩ := h.family p proc hp
  refine ⟨proc, ?_⟩
  by_cases hmem : .process p ∈ terminated.terminationListeners.elements
  · rw [if_pos hmem]
    refine ⟨hpc, hp, rfl, rfl, rfl, rfl, fun q => ?_, hnodup.erase c, ?_⟩
    · rw [Process.removeChild, Kqueue.remove, hnodup.mem_erase_iff, and_comm]
    · have hle : (proc.children.elements.erase c).length ≤ proc.children.elements.length :=
        List.length_erase_le
      simp only [Process.removeChild, Kqueue.remove]
      omega
  · rw [if_neg hmem]
    refine ⟨hpc, hp, rfl, rfl, rfl, rfl, fun q => ⟨fun hq => ⟨hq, ?_⟩, And.left⟩, hnodup, hlen⟩
    -- a parent of `c` is among the listeners of `c`
    rintro rfl
    obtain ⟨-, proc', hproc', hlisten⟩ := h.child p proc hp q hq
    obtain rfl := Option.some.inj (hc.symm.trans hproc')
    exact hmem hlisten

theorem Terminated.lives {terminated : Process} {listeners : List Listener}
    (ht : Terminated P P' B B' c terminated listeners) (hp : P p = some proc) (hpc : p ≠ c) :
    ∃ proc', P' p = some proc' ∧ proc'.terminationListeners = proc.terminationListeners := by
  by_cases hmem : .process p ∈ listeners
  · exact ⟨proc.removeChild c, by rw [ht.parent p hpc hmem, hp]; rfl, rfl⟩
  · exact ⟨proc, by rw [ht.other p hpc hmem, hp], rfl⟩

/-- The family is left without `c`. -/
theorem Terminated.family {terminated record : Process} (h : Family P)
    (hc : P c = some terminated)
    (ht : Terminated P P' B B' c record terminated.terminationListeners.elements) :
    Family P' := by
  have hsame : ∀ p proc', P' p = some proc' → ∃ proc, Survives P c p proc proc' :=
    fun p proc' hp' => ht.survives h hc hp'
  constructor
  · by_contra hne
    obtain ⟨proc', hproc'⟩ := Option.ne_none_iff_exists'.mp hne
    obtain ⟨proc, hs⟩ := hsame 0 proc' hproc'
    have hnull := hs.old
    rw [h.null] at hnull
    cases hnull
  · intro q parent' hq' p hp
    obtain ⟨parent, hs⟩ := hsame q parent' hq'
    obtain ⟨hp, hpc⟩ := (hs.children p).mp hp
    obtain ⟨hpq, proc, hproc, hlisten⟩ := h.child q parent hs.old p hp
    obtain ⟨proc', hproc', hlisteners⟩ := ht.lives hproc hpc
    exact ⟨hpq, proc', hproc', hlisteners ▸ hlisten⟩
  · intro p proc' hp' q hq parent' hparent'
    obtain ⟨proc, hs⟩ := hsame p proc' hp'
    obtain ⟨parent, hs'⟩ := hsame q parent' hparent'
    rw [hs.listeners] at hq
    exact (hs'.children p).mpr ⟨h.parent p proc hs.old q hq parent hs'.old, hs.ne⟩
  · intro q parent' hq'
    obtain ⟨parent, hs⟩ := hsame q parent' hq'
    exact ⟨hs.nodup, hs.length⟩
  · intro q parent' hq' p hp r hr proc' hproc' other' hother' hpid
    obtain ⟨parent, hs⟩ := hsame q parent' hq'
    obtain ⟨proc, hs₁⟩ := hsame p proc' hproc'
    obtain ⟨other, hs₂⟩ := hsame r other' hother'
    rw [hs₁.pid, hs₂.pid] at hpid
    exact h.siblings q parent hs.old p ((hs.children p).mp hp).1 r ((hs.children r).mp hr).1 proc
      hs₁.old other hs₂.old hpid

theorem Kin.terminate (h : Kin P B) {terminated record : Process} (hc : P c = some terminated)
    (ht : Terminated P P' B B' c record terminated.terminationListeners.elements) : Kin P' B' := by
  have hsame : ∀ p proc', P' p = some proc' → ∃ proc, Survives P c p proc proc' :=
    fun p proc' hp' => ht.survives h.toFamily hc hp'
  constructor
  · exact ht.family h.toFamily hc
  · intro p proc' hp' h0
    obtain ⟨proc, hs⟩ := hsame p proc' hp'
    rw [hs.block] at h0 ⊢
    obtain ⟨b, hb, hcaller⟩ := h.block p proc hs.old h0
    obtain ⟨b', hb', hcaller', -⟩ := ht.block hb
    exact ⟨b', hb', hcaller'.trans hcaller⟩
  · intro p proc' hp' h0
    obtain ⟨proc, hs⟩ := hsame p proc' hp'
    rw [hs.childListener] at h0 ⊢
    rw [hs.block]
    obtain ⟨heq, b, hb, hany⟩ := h.childListener p proc hs.old h0
    obtain ⟨b', hb', -, hwaitpid, -⟩ := ht.block hb
    exact ⟨heq, b', hb', by rwa [Waitblock.AnyChild, hwaitpid]⟩
  · intro p proc' hp' w hw
    obtain ⟨proc, hs⟩ := hsame p proc' hp'
    rw [hs.listeners] at hw
    obtain ⟨b, hb, hactive, hany⟩ := h.listener p proc hs.old w hw
    exact ⟨b, by rw [ht.untold w (h.untold hc hs.old hs.ne hw), hb], hactive, hany⟩
  · intro p proc' hp' q other' hq' w hw hw'
    obtain ⟨proc, hs⟩ := hsame p proc' hp'
    obtain ⟨other, hs'⟩ := hsame q other' hq'
    rw [hs.listeners] at hw
    rw [hs'.listeners] at hw'
    exact h.unique p proc hs.old q other hs'.old w hw hw'
  · intro p proc' hp'
    obtain ⟨proc, hs⟩ := hsame p proc' hp'
    rw [hs.listeners]
    exact h.once p proc hs.old

/-! ## A wait and its end -/

/-- The process `c` has got the block `w`, which may listen to another process, or to the
children of `c`. -/
structure Waits (P P' : Nat → Option Process) (c w : Nat) (proc : Process) (target : Option Nat)
    (watch : Bool) : Prop where
  self : P' c = some { proc with
    block := w
    childTerminationListener := if watch then w else proc.childTerminationListener }
  other : ∀ q, q ≠ c → P' q = (P q).map fun other =>
    if target = some q then other.addTerminationListener (.waitblock w) else other

/-- A process after the wait is an old one, which is `c` or one that may be listened to. -/
theorem Waits.process {target : Option Nat} {watch : Bool} {proc' : Process}
    (hP : Waits P P' c w proc target watch) (hc : P c = some proc)
    (hlistener : proc.childTerminationListener = 0) (hp : P' p = some proc') :
    ∃ old, P p = some old ∧ proc'.pid = old.pid ∧ proc'.children = old.children ∧
      (p = c ∧ proc'.block = w ∧ proc'.terminationListeners = old.terminationListeners ∧
          (proc'.childTerminationListener ≠ 0 →
            watch = true ∧ proc'.childTerminationListener = w) ∨
        p ≠ c ∧ proc'.block = old.block ∧
          proc'.childTerminationListener = old.childTerminationListener ∧
          proc'.terminationListeners.elements =
            if target = some p then .waitblock w :: old.terminationListeners.elements
            else old.terminationListeners.elements) := by
  by_cases hpc : p = c
  · subst hpc
    rw [hP.self] at hp
    obtain rfl := Option.some.inj hp
    refine ⟨proc, hc, rfl, rfl, .inl ⟨rfl, rfl, rfl, fun hne => ?_⟩⟩
    cases watch with
    | false => exact absurd hlistener hne
    | true => exact ⟨rfl, rfl⟩
  · rw [hP.other p hpc] at hp
    obtain ⟨old, hold, rfl⟩ := Option.map_eq_some_iff.mp hp
    refine ⟨old, hold, ?_⟩
    split_ifs with ht
    · exact ⟨rfl, rfl, .inr ⟨hpc, rfl, rfl, rfl⟩⟩
    · exact ⟨rfl, rfl, .inr ⟨hpc, rfl, rfl, rfl⟩⟩

/-- A listener is an old one, or the new block at the target. -/
theorem Waits.listens {target : Option Nat} {watch : Bool} {proc' : Process} {e : Listener}
    (hP : Waits P P' c w proc target watch) (hc : P c = some proc)
    (hlistener : proc.childTerminationListener = 0) (hp : P' p = some proc')
    (he : e ∈ proc'.terminationListeners.elements) :
    (target = some p ∧ e = .waitblock w) ∨
      ∃ old, P p = some old ∧ e ∈ old.terminationListeners.elements := by
  obtain ⟨old, hold, -, -, ⟨-, -, hls, -⟩ | ⟨-, -, -, hls⟩⟩ := hP.process hc hlistener hp
  · rw [hls] at he
    exact .inr ⟨old, hold, he⟩
  · rw [hls] at he
    split_ifs at he with ht
    · cases List.mem_cons.mp he with
      | inl he => exact .inl ⟨ht, he⟩
      | inr he => exact .inr ⟨old, hold, he⟩
    · exact .inr ⟨old, hold, he⟩

theorem Waits.lives {target : Option Nat} {watch : Bool} {old : Process}
    (hP : Waits P P' c w proc target watch) (hc : P c = some proc) (hp : P p = some old) :
    ∃ proc', P' p = some proc' ∧
      ∀ e ∈ old.terminationListeners.elements, e ∈ proc'.terminationListeners.elements := by
  by_cases hpc : p = c
  · subst hpc
    obtain rfl := Option.some.inj (hc.symm.trans hp)
    exact ⟨_, hP.self, fun e he => he⟩
  · refine ⟨_, by rw [hP.other p hpc, hp]; rfl, fun e he => ?_⟩
    split_ifs
    · exact List.mem_cons_of_mem _ he
    · exact he

theorem Waits.family {target : Option Nat} {watch : Bool}
    (hP : Waits P P' c w proc target watch) (h : Family P) (hc : P c = some proc)
    (hlistener : proc.childTerminationListener = 0) : Family P' := by
  refine h.congr (fun p old hold => ?_) fun p proc' hp => ?_
  · obtain ⟨proc', hproc', -⟩ := hP.lives hc hold
    exact ⟨proc', hproc'⟩
  · obtain ⟨old, hold, hpid, hchildren, -⟩ := hP.process hc hlistener hp
    refine ⟨old, hold, hpid, hchildren, fun q => ⟨fun hq => ?_, fun hq => ?_⟩⟩
    · obtain ⟨-, he⟩ | ⟨old', hold', hq⟩ := hP.listens hc hlistener hp hq
      · cases he
      · rwa [Option.some.inj (hold.symm.trans hold')]
    · obtain ⟨proc'', hproc'', hls⟩ := hP.lives hc hold
      rw [Option.some.inj (hp.symm.trans hproc'')]
      exact hls _ hq

theorem Kin.wait {target : Option Nat} {watch : Bool} (h : Kin P B) (hc : P c = some proc)
    (hblock : proc.block = 0) (hw : w ≠ 0) (hnone : B w = none) (hcaller : b.caller = c)
    (htarget : ∀ q, target = some q → q ≠ c ∧ b.active = true ∧ ¬ b.AnyChild)
    (hwatch : watch = true → b.AnyChild) (hP : Waits P P' c w proc target watch) :
    Kin P' (Function.update B w (some b)) := by
  have hlistener := h.unlistened hc hblock
  have hkeep : ∀ v b', B v = some b' → Function.update B w (some b) v = some b' := by
    intro v b' hv
    have hvw : v ≠ w := by
      rintro rfl
      rw [hnone] at hv
      cases hv
    rw [Function.update_of_ne hvw, hv]
  constructor
  · exact hP.family h.toFamily hc hlistener
  · intro p proc' hp h0
    obtain ⟨old, hold, -, -, ⟨rfl, hb, -⟩ | ⟨-, hb, -⟩⟩ := hP.process hc hlistener hp
    · exact ⟨b, by rw [hb, Function.update_self], hcaller⟩
    · rw [hb] at h0 ⊢
      obtain ⟨b', hb', hcaller'⟩ := h.block p old hold h0
      exact ⟨b', hkeep _ b' hb', hcaller'⟩
  · intro p proc' hp h0
    obtain ⟨old, hold, -, -, ⟨-, hb, -, hl⟩ | ⟨-, hb, hl, -⟩⟩ := hP.process hc hlistener hp
    · obtain ⟨hwatched, hl⟩ := hl h0
      exact ⟨by rw [hl, hb], b, by rw [hb, Function.update_self], hwatch hwatched⟩
    · rw [hl] at h0 ⊢
      rw [hb]
      obtain ⟨heq, b', hb', hany⟩ := h.childListener p old hold h0
      exact ⟨heq, b', hkeep _ b' hb', hany⟩
  · intro p proc' hp v hv
    obtain ⟨ht, he⟩ | ⟨old, hold, hv⟩ := hP.listens hc hlistener hp hv
    · obtain rfl : v = w := by simpa using he
      obtain ⟨-, hactive, hany⟩ := htarget p ht
      exact ⟨b, by rw [Function.update_self], hactive, hany⟩
    · obtain ⟨b', hb', hactive, hany⟩ := h.listener p old hold v hv
      exact ⟨b', hkeep v b' hb', hactive, hany⟩
  · intro p proc' hp q other' hq v hv hv'
    obtain ⟨ht, he⟩ | ⟨old, hold, hv⟩ := hP.listens hc hlistener hp hv
    · obtain rfl : v = w := by simpa using he
      obtain ⟨ht', -⟩ | ⟨other, hother, hv'⟩ := hP.listens hc hlistener hq hv'
      · exact Option.some.inj (ht.symm.trans ht')
      · exact absurd hv' (h.fresh hnone hother)
    · obtain ⟨-, he⟩ | ⟨other, hother, hv'⟩ := hP.listens hc hlistener hq hv'
      · obtain rfl : v = w := by simpa using he
        exact absurd hv (h.fresh hnone hold)
      · exact h.unique p old hold q other hother v hv hv'
  · intro p proc' hp
    obtain ⟨old, hold, -, -, ⟨-, -, hls, -⟩ | ⟨-, -, -, hls⟩⟩ := hP.process hc hlistener hp
    · rw [hls]
      exact h.once p old hold
    · rw [hls]
      split_ifs
      · exact List.nodup_cons.mpr ⟨h.fresh hnone hold, h.once p old hold⟩
      · exact h.once p old hold

/-- A process gives up a block that is no longer active, and the block is deleted. -/
theorem Kin.release (h : Kin P B) (hc : P c = some proc) (hblock : proc.block = w) (hw : w ≠ 0)
    (hb : B w = some b) (hactive : b.active = false) :
    Kin (Function.update P c (some { proc with block := 0, childTerminationListener := 0 }))
      (Function.update B w none) := by
  have hsame : ∀ p proc', Function.update P c
      (some { proc with block := 0, childTerminationListener := 0 }) p = some proc' →
      ∃ old, P p = some old ∧ proc'.pid = old.pid ∧ proc'.children = old.children ∧
        proc'.terminationListeners = old.terminationListeners ∧
        (proc'.block ≠ 0 → p ≠ c ∧ proc'.block = old.block) ∧
        (proc'.childTerminationListener ≠ 0 → p ≠ c ∧
          proc'.childTerminationListener = old.childTerminationListener ∧
          proc'.block = old.block) := by
    intro p proc' hp
    obtain ⟨rfl, rfl⟩ | ⟨hpc, hp⟩ := update_cases hp
    · exact ⟨proc, hc, rfl, rfl, rfl, fun h0 => absurd rfl h0, fun h0 => absurd rfl h0⟩
    · exact ⟨proc', hp, rfl, rfl, rfl, fun _ => ⟨hpc, rfl⟩, fun _ => ⟨hpc, rfl, rfl⟩⟩
  -- the block of another process is another block
  have hother : ∀ p old, P p = some old → p ≠ c → old.block ≠ 0 → old.block ≠ w := by
    intro p old hp hpc h0 hpw
    obtain ⟨b', hb', hcaller'⟩ := h.block p old hp h0
    obtain ⟨b'', hb'', hcaller⟩ := h.block c proc hc (hblock ▸ hw)
    rw [hpw, ← hblock, hb''] at hb'
    rw [← Option.some.inj hb'] at hcaller'
    exact hpc (hcaller'.symm.trans hcaller)
  constructor
  · refine h.toFamily.congr (fun p old hold => ?_) fun p proc' hp => ?_
    · by_cases hpc : p = c
      · subst hpc
        exact ⟨_, Function.update_self ..⟩
      · exact ⟨old, by rw [Function.update_of_ne hpc, hold]⟩
    · obtain ⟨old, hold, hpid, hchildren, hls, -⟩ := hsame p proc' hp
      exact ⟨old, hold, hpid, hchildren, fun q => by rw [hls]⟩
  · intro p proc' hp h0
    obtain ⟨old, hold, -, -, -, hkeep, -⟩ := hsame p proc' hp
    obtain ⟨hpc, heq⟩ := hkeep h0
    rw [heq] at h0 ⊢
    obtain ⟨b', hb', hcaller'⟩ := h.block p old hold h0
    exact ⟨b', by rw [Function.update_of_ne (hother p old hold hpc h0), hb'], hcaller'⟩
  · intro p proc' hp h0
    obtain ⟨old, hold, -, -, -, -, hkeep⟩ := hsame p proc' hp
    obtain ⟨hpc, hl, hbl⟩ := hkeep h0
    rw [hl] at h0 ⊢
    rw [hbl]
    obtain ⟨heq, b', hb', hany⟩ := h.childListener p old hold h0
    have hne := hother p old hold hpc (heq ▸ h0)
    exact ⟨heq, b', by rw [Function.update_of_ne hne, hb'], hany⟩
  · intro p proc' hp v hv
    obtain ⟨old, hold, -, -, hls, -⟩ := hsame p proc' hp
    rw [hls] at hv
    obtain ⟨b', hb', hact, hany⟩ := h.listener p old hold v hv
    have hvw : v ≠ w := by
      rintro rfl
      rw [hb] at hb'
      rw [← Option.some.inj hb', hactive] at hact
      cases hact
    exact ⟨b', by rw [Function.update_of_ne hvw, hb'], hact, hany⟩
  · intro p proc' hp q other' hq v hv hv'
    obtain ⟨old, hold, -, -, hls, -⟩ := hsame p proc' hp
    obtain ⟨other, hother, -, -, hls', -⟩ := hsame q other' hq
    rw [hls] at hv
    rw [hls'] at hv'
    exact h.unique p old hold q other hother v hv hv'
  · intro p proc' hp
    obtain ⟨old, hold, -, -, hls, -⟩ := hsame p proc' hp
    rw [hls]
    exact h.once p old hold

end WagtailScheduler
