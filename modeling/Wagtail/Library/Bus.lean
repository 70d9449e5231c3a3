import Wagtail.Library.Runs

/-!
# Drivers, devices and protocols

A driver reads and writes the registers of a device that it polls. Nothing is assumed about
the device: its answers are a list, and where the list ends, the driver waits. A protocol is
a monitor of the accesses, and the rules for drivers that keep to one are those of a Hoare
logic over the variables of the driver and the state of the monitor.
-/
namespace Bus

variable {μ α β σ : Type}

/-! ## Drivers -/

inductive Access where
  | read (register value : Nat)
  | write (register value : Nat)
  deriving DecidableEq, Repr

/-- The answers that are still to come, the accesses so far, and the variables of the driver. -/
structure State (μ : Type) where
  replies : List Nat
  trace : List Access
  memory : μ

inductive Outcome (μ α : Type) where
  | done (a : α) (s : State μ)
  | waits (s : State μ)

def Driver (μ α : Type) : Type := State μ → Outcome μ α

instance : Monad (Driver μ) where
  pure a := fun s => .done a s
  bind m f := fun s =>
    match m s with
    | .done a t => f a t
    | .waits t => .waits t

theorem pure_apply (a : α) (s : State μ) : (pure a : Driver μ α) s = .done a s := rfl

theorem bind_apply (m : Driver μ α) (f : α → Driver μ β) (s : State μ) :
    (m >>= f) s = match m s with
      | .done a t => f a t
      | .waits t => .waits t := rfl

def read (register : Nat) : Driver μ Nat := fun s =>
  match s.replies with
  | [] => .waits s
  | value :: replies =>
    .done value { s with replies, trace := s.trace ++ [.read register value] }

def write (register value : Nat) : Driver μ Unit := fun s =>
  .done () { s with trace := s.trace ++ [.write register value] }

def get : Driver μ μ := fun s => .done s.memory s

def set (memory : μ) : Driver μ Unit := fun s => .done () { s with memory }

def attempts (body : Driver μ (Option α)) : Nat → Driver μ α
  | 0 => fun s => .waits s
  | n + 1 => do
    match ← body with
    | some a => pure a
    | none => attempts body n

/-- A loop that ends when its body has a result, for bodies that read something. -/
def loop (body : Driver μ (Option α)) : Driver μ α := fun s =>
  attempts body (s.replies.length + 1) s

/-! ## Loops -/

/-- A driver waits when no answer is left, and takes some of them. -/
def Takes (n : Nat) (m : Driver μ α) : Prop := ∀ s,
  match m s with
  | .done _ t => t.replies.length + n ≤ s.replies.length
  | .waits t => t.replies = []

theorem takes_pure (a : α) : Takes 0 (pure a : Driver μ α) := fun _ => Nat.le_refl _

theorem takes_write (register value : Nat) : Takes 0 (write register value : Driver μ Unit) :=
  fun _ => Nat.le_refl _

theorem takes_get : Takes 0 (get : Driver μ μ) := fun _ => Nat.le_refl _

theorem takes_set (memory : μ) : Takes 0 (set memory) := fun _ => Nat.le_refl _

theorem takes_read (register : Nat) : Takes 1 (read register : Driver μ Nat) := by
  rintro ⟨replies, trace, memory⟩
  cases replies with
  | nil => rfl
  | cons value replies => exact Nat.le_refl _

theorem Takes.bind {n k : Nat} {m : Driver μ α} {f : α → Driver μ β} (hm : Takes n m)
    (hf : ∀ a, Takes k (f a)) : Takes (n + k) (m >>= f) := by
  intro s
  have hfirst := hm s
  rw [bind_apply]
  cases hresult : m s with
  | waits t =>
    rw [hresult] at hfirst
    exact hfirst
  | done a t =>
    rw [hresult] at hfirst
    have hsecond := hf a t
    dsimp only at hfirst hsecond ⊢
    cases hresult' : f a t with
    | waits u =>
      rw [hresult'] at hsecond
      exact hsecond
    | done b u =>
      rw [hresult'] at hsecond
      dsimp only at hsecond ⊢
      omega

theorem Takes.le {n k : Nat} {m : Driver μ α} (hm : Takes n m) (h : k ≤ n) : Takes k m := by
  intro s
  have htakes := hm s
  cases hresult : m s with
  | waits t =>
    rw [hresult] at htakes
    exact htakes
  | done a t =>
    rw [hresult] at htakes
    dsimp only at htakes ⊢
    omega

theorem Takes.zero {n : Nat} {m : Driver μ α} (hm : Takes n m) : Takes 0 m :=
  hm.le (Nat.zero_le n)

theorem Takes.next {m : Driver μ α} {f : α → Driver μ β} (hm : Takes 0 m)
    (hf : ∀ a, Takes 0 (f a)) : Takes 0 (m >>= f) := (hm.bind hf).zero

theorem takes_ite {n : Nat} {b : Bool} {m m' : Driver μ α} (hm : Takes n m) (hm' : Takes n m') :
    Takes n (if b then m else m') := by
  cases b with
  | true => exact hm
  | false => exact hm'

/-- More attempts than answers make no difference. -/
theorem attempts_eq {body : Driver μ (Option α)} (h : Takes 1 body) (n k : Nat) (s : State μ)
    (hn : s.replies.length < n) (hk : s.replies.length < k) :
    attempts body n s = attempts body k s := by
  induction n generalizing k s with
  | zero => omega
  | succ n ih =>
    obtain ⟨k, rfl⟩ := Nat.exists_eq_succ_of_ne_zero (by omega : k ≠ 0)
    have htakes := h s
    rw [attempts, attempts, bind_apply, bind_apply]
    cases hresult : body s with
    | waits t => rfl
    | done o t =>
      rw [hresult] at htakes
      cases o with
      | some a => rfl
      | none =>
        dsimp only at htakes ⊢
        exact ih k t (by omega) (by omega)

/-- A loop is one round of it, and again the loop. -/
theorem loop_eq {body : Driver μ (Option α)} (h : Takes 1 body) :
    loop body = body >>= fun
      | some a => pure a
      | none => loop body := by
  funext s
  have htakes := h s
  rw [loop, attempts, bind_apply, bind_apply]
  cases hresult : body s with
  | waits t => rfl
  | done o t =>
    rw [hresult] at htakes
    cases o with
    | some a => rfl
    | none =>
      dsimp only at htakes ⊢
      exact attempts_eq h _ _ t (by omega) (by omega)

/-- A loop that looks at the result of every round. -/
theorem loop_pure_eq {m : Driver μ β} (h : Takes 1 m) (f : β → Option α) :
    loop (m >>= fun b => pure (f b)) =
      m >>= fun b => (f b).elim (loop (m >>= fun b => pure (f b))) pure := by
  refine (loop_eq (h.bind fun _ => takes_pure _)).trans (funext fun s => ?_)
  rw [bind_apply, bind_apply, bind_apply]
  cases m s with
  | waits t => rfl
  | done b t =>
    dsimp only [pure_apply]
    cases f b with
    | some a => rfl
    | none => rfl

theorem takes_loop {body : Driver μ (Option α)} (h : Takes 1 body) : Takes 1 (loop body) := by
  have hattempts : ∀ n s, s.replies.length < n → match attempts body n s with
      | .done _ t => t.replies.length + 1 ≤ s.replies.length
      | .waits t => t.replies = [] := by
    intro n
    induction n with
    | zero => exact fun s hs => absurd hs (Nat.not_lt_zero _)
    | succ n ih =>
      intro s hs
      have htakes := h s
      rw [attempts, bind_apply]
      cases hresult : body s with
      | waits t =>
        rw [hresult] at htakes
        exact htakes
      | done o t =>
        rw [hresult] at htakes
        cases o with
        | some a => exact htakes
        | none =>
          dsimp only at htakes ⊢
          have hrest := ih t (by omega)
          cases hagain : attempts body n t with
          | waits u =>
            rw [hagain] at hrest
            exact hrest
          | done a u =>
            rw [hagain] at hrest
            dsimp only at hrest ⊢
            omega
  exact fun s => hattempts _ s (Nat.lt_succ_self _)

/-! ## Protocols -/

/-- What a monitor does not allow, it has no state for. -/
structure Monitor (σ : Type) where
  start : σ
  step : σ → Access → Option σ

def Monitor.after (M : Monitor σ) (trace : List Access) : Option σ := trace.foldlM M.step M.start

theorem Monitor.after_snoc (M : Monitor σ) (trace : List Access) (access : Access) :
    M.after (trace ++ [access]) = (M.after trace).bind fun q => M.step q access :=
  Runs.foldlM_snoc M.step M.start trace access

/-- The driver keeps to the protocol, and if it does not wait, the result has this property. -/
def Triple (M : Monitor σ) (P : μ → σ → Prop) (m : Driver μ α) (Q : α → μ → σ → Prop) : Prop :=
  ∀ s q, M.after s.trace = some q → P s.memory q →
    match m s with
    | .done a t => ∃ q', M.after t.trace = some q' ∧ Q a t.memory q'
    | .waits t => ∃ q', M.after t.trace = some q'

variable {M : Monitor σ} {P P' : μ → σ → Prop} {m : Driver μ α} {Q Q' : α → μ → σ → Prop}

theorem triple_pure {a : α} (h : ∀ memory q, P memory q → Q a memory q) :
    Triple M P (pure a) Q := fun _ q hq hp => ⟨q, hq, h _ _ hp⟩

theorem Triple.bind {R : β → μ → σ → Prop} {f : α → Driver μ β} (hm : Triple M P m Q)
    (hf : ∀ a, Triple M (Q a) (f a) R) : Triple M P (m >>= f) R := by
  intro s q hq hp
  have hfirst := hm s q hq hp
  rw [bind_apply]
  cases hresult : m s with
  | waits t =>
    rw [hresult] at hfirst
    exact hfirst
  | done a t =>
    rw [hresult] at hfirst
    obtain ⟨q', hq', ha⟩ := hfirst
    exact hf a t q' hq' ha

theorem Triple.weaken (h : Triple M P m Q) (hpre : ∀ memory q, P' memory q → P memory q)
    (hpost : ∀ a memory q, Q a memory q → Q' a memory q) : Triple M P' m Q' := by
  intro s q hq hp
  have hresult := h s q hq (hpre _ _ hp)
  cases hm : m s with
  | waits t =>
    rw [hm] at hresult
    exact hresult
  | done a t =>
    rw [hm] at hresult
    obtain ⟨q', hq', ha⟩ := hresult
    exact ⟨q', hq', hpost _ _ _ ha⟩

theorem triple_read {register : Nat} {Q : Nat → μ → σ → Prop}
    (h : ∀ memory q value, P memory q →
      ∃ q', M.step q (.read register value) = some q' ∧ Q value memory q') :
    Triple M P (read register) Q := by
  rintro ⟨replies, trace, memory⟩ q hq hp
  cases replies with
  | nil => exact ⟨q, hq⟩
  | cons value replies =>
    obtain ⟨q', hstep, hvalue⟩ := h memory q value hp
    refine ⟨q', ?_, hvalue⟩
    show M.after (trace ++ [_]) = some q'
    rw [M.after_snoc, show M.after trace = some q from hq]
    exact hstep

theorem triple_write {register value : Nat} {Q : Unit → μ → σ → Prop}
    (h : ∀ memory q, P memory q →
      ∃ q', M.step q (.write register value) = some q' ∧ Q () memory q') :
    Triple M P (write register value) Q := by
  rintro ⟨replies, trace, memory⟩ q hq hp
  obtain ⟨q', hstep, hdone⟩ := h memory q hp
  refine ⟨q', ?_, hdone⟩
  show M.after (trace ++ [_]) = some q'
  rw [M.after_snoc, show M.after trace = some q from hq]
  exact hstep

theorem triple_get {Q : μ → μ → σ → Prop} (h : ∀ memory q, P memory q → Q memory memory q) :
    Triple M P get Q := fun _ q hq hp => ⟨q, hq, h _ _ hp⟩

theorem triple_set {memory : μ} {Q : Unit → μ → σ → Prop}
    (h : ∀ old q, P old q → Q () memory q) : Triple M P (set memory) Q :=
  fun _ q hq hp => ⟨q, hq, h _ _ hp⟩

/-- What holds before a loop, and after every round without a result, is its invariant. -/
theorem triple_loop {body : Driver μ (Option α)} (h : Triple M P body fun o memory q =>
    match o with
    | some a => Q a memory q
    | none => P memory q) : Triple M P (loop body) Q := by
  have hattempts : ∀ n, Triple M P (attempts body n) Q := by
    intro n
    induction n with
    | zero => exact fun _ q hq _ => ⟨q, hq⟩
    | succ n ih =>
      rw [attempts]
      refine h.bind fun o => ?_
      cases o with
      | some a => exact triple_pure fun _ _ ha => ha
      | none => exact ih
  exact fun s => hattempts _ s

end Bus
