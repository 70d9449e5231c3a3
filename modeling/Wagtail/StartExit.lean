import Wagtail.StartCode

/-!
# The end of the start code

Control never gets to the system call that ends an application: the loop over the
destructors leaves for the next label `2`, and that is the one behind the call.
-/
namespace WagtailStart

/-! ## Where control goes -/

/-- The lines that can follow a line. -/
def successors (code : List Line) (pc : Nat) : List Nat :=
  match code[pc]? with
  | none => []
  | some (.b target) => (resolve code pc target).toList
  | some (.bne target) | some (.beq target) => (pc + 1) :: (resolve code pc target).toList
  | some _ => [pc + 1]

def Line.isSvc : Line → Bool
  | .svc _ => true
  | _ => false

/-- The system calls of a run so far. -/
def systemCalls (trace : List Event) : List (Nat × Nat) :=
  trace.filterMap fun
    | .systemCall n argument => some (n, argument)
    | _ => none

variable {e : Environment} {code : List Line} {m m' : Machine}

@[simp] theorem set_pc (m : Machine) (r : Reg) (value : Nat) : (m.set r value).pc = m.pc := by
  cases r <;> rfl

@[simp] theorem set_trace (m : Machine) (r : Reg) (value : Nat) :
    (m.set r value).trace = m.trace := by
  cases r <;> rfl

theorem popRegisters_frame {registers : List Reg} (h : m.popRegisters registers = some m') :
    m'.pc = m.pc ∧ m'.trace = m.trace := by
  induction registers generalizing m with
  | nil =>
    obtain rfl := Option.some.inj h
    exact ⟨rfl, rfl⟩
  | cons r registers ih =>
    rw [Machine.popRegisters] at h
    cases hstack : m.stack with
    | nil => simp [hstack] at h
    | cons word stack =>
      rw [hstack] at h
      simpa using ih h

theorem jump_frame {target : Ref} (h : m.jump code target = some m') :
    m'.pc ∈ (resolve code m.pc target).toList ∧ m'.trace = m.trace := by
  obtain ⟨pc, hpc, rfl⟩ := Option.map_eq_some_iff.mp h
  exact ⟨by simp [hpc], rfl⟩

theorem call_frame {function : Nat} (h : m.call e function = some m') :
    m'.pc = m.pc + 1 ∧ systemCalls m'.trace = systemCalls m.trace := by
  obtain ⟨returned, -, rfl⟩ := Option.map_eq_some_iff.mp h
  exact ⟨rfl, by simp [systemCalls]⟩

/-- A line leads to one of its successors, and only `svc` is a system call. -/
theorem step_frame (h : step e code m = some m') :
    m'.pc ∈ successors code m.pc ∧
      ((∀ line ∈ code[m.pc]?, line.isSvc = false) →
        systemCalls m'.trace = systemCalls m.trace) := by
  obtain ⟨line, hline, hexecute⟩ := Option.bind_eq_some_iff.mp h
  rw [successors, hline]
  cases line with
  | b target =>
    obtain ⟨hpc, htrace⟩ := jump_frame hexecute
    exact ⟨hpc, fun _ => by rw [htrace]⟩
  | bne target =>
    rw [execute] at hexecute
    split at hexecute
    · obtain rfl := Option.some.inj hexecute
      exact ⟨List.mem_cons_self, fun _ => rfl⟩
    · obtain ⟨hpc, htrace⟩ := jump_frame hexecute
      exact ⟨List.mem_cons_of_mem _ hpc, fun _ => by rw [htrace]⟩
  | beq target =>
    rw [execute] at hexecute
    split at hexecute
    · obtain ⟨hpc, htrace⟩ := jump_frame hexecute
      exact ⟨List.mem_cons_of_mem _ hpc, fun _ => by rw [htrace]⟩
    · obtain rfl := Option.some.inj hexecute
      exact ⟨List.mem_cons_self, fun _ => rfl⟩
  | strne rt rn offset =>
    rw [execute] at hexecute
    split at hexecute
    · obtain rfl := Option.some.inj hexecute
      exact ⟨List.mem_cons_self, fun _ => rfl⟩
    · obtain rfl := Option.some.inj hexecute
      exact ⟨by simp [Machine.next], fun _ => by simp [Machine.next, systemCalls]⟩
  | pop registers =>
    obtain ⟨m₁, hpop, rfl⟩ := Option.map_eq_some_iff.mp hexecute
    obtain ⟨hpc, htrace⟩ := popRegisters_frame hpop
    exact ⟨by simp [Machine.next, hpc], fun _ => by simp [Machine.next, htrace]⟩
  | blx rm =>
    obtain ⟨hpc, htrace⟩ := call_frame hexecute
    exact ⟨by simp [hpc], fun _ => htrace⟩
  | bl symbol =>
    obtain ⟨hpc, htrace⟩ := call_frame hexecute
    exact ⟨by simp [hpc], fun _ => htrace⟩
  | svc n =>
    obtain rfl := Option.some.inj hexecute
    exact ⟨List.mem_cons_self, fun hne => absurd (hne (.svc n) rfl) (by simp [Line.isSvc])⟩
  | _ =>
    obtain rfl := Option.some.inj hexecute
    exact ⟨by simp [Machine.next], fun _ => by simp [Machine.next]⟩

/-- The lines that pop the return value of `main` and end the application. -/
def exitLines : List Nat := [35, 36]

theorem not_svc {pc : Nat} (hpc : pc ∉ exitLines) :
    ∀ line ∈ startCode[pc]?, line.isSvc = false := by
  have hall : ∀ pc < startCode.length, pc ∉ exitLines →
      ∀ line ∈ startCode[pc]?, line.isSvc = false := by decide
  intro line hline
  obtain ⟨hlt, -⟩ := List.getElem?_eq_some_iff.mp hline
  exact hall pc hlt hpc line hline

/-- No other line leads to them: `beq.n 2f` behind `main` means the second label. -/
theorem successors_not_exit {pc : Nat} (hpc : pc ∉ exitLines) :
    ∀ next ∈ successors startCode pc, next ∉ exitLines := by
  have hall : ∀ pc < startCode.length, pc ∉ exitLines →
      ∀ next ∈ successors startCode pc, next ∉ exitLines := by decide
  by_cases hlt : pc < startCode.length
  · exact hall pc hlt hpc
  · have hnone : startCode[pc]? = none := List.getElem?_eq_none (by omega)
    simp [successors, hnone]

theorem run_never_exits {n : Nat} (hpc : m.pc ∉ exitLines)
    (h : run e startCode n m = some m') : systemCalls m'.trace = systemCalls m.trace := by
  induction n generalizing m with
  | zero =>
    obtain rfl := Option.some.inj h
    rfl
  | succ n ih =>
    obtain ⟨m₁, hstep, hrest⟩ := Option.bind_eq_some_iff.mp h
    obtain ⟨hnext, htrace⟩ := step_frame hstep
    rw [ih (successors_not_exit hpc _ hnext) hrest, htrace (not_svc hpc)]

/-! ## What an application asks of the start code -/

/-- The function of a call. -/
def Event.function : Event → Option Nat
  | .called function _ => some function
  | _ => none

/-- These bytes are set to zero, in order. -/
def zeroed (start size : Nat) : List Event :=
  (List.range size).map fun i => .stored (start + i) 0

/-- The .bss section is set to zero, the constructors, `main` and the destructors are called, and
the application exits with the value that `main` returns. -/
def Application.Completes (app : Application) (function : Nat → Machine → Option Returned)
    (m : Machine) : Prop :=
  ∃ n m' constructed value destroyed,
    run (app.environment function) startCode n m = some m' ∧
    constructed.map Event.function = app.constructors.map some ∧
    destroyed.map Event.function = app.destructors.map some ∧
    m'.trace = zeroed app.bssStart app.bssSize ++ constructed ++ [.called app.main value] ++
      destroyed ++ [.systemCall 1 value]

variable {app : Application} {function : Nat → Machine → Option Returned}

/-- No application completes: the destructors are followed by waiting. -/
theorem start_not_completes (app : Application) (function : Nat → Machine → Option Returned)
    (r0 r1 r2 : Nat) (zero : Bool) (stack : List Nat) (memory : Nat → UInt8) :
    ¬ app.Completes function (entry r0 r1 r2 zero stack memory) := by
  rintro ⟨n, m', constructed, value, destroyed, hrun, -, -, htrace⟩
  have hpc : (entry r0 r1 r2 zero stack memory).pc ∉ exitLines := (by decide : 0 ∉ exitLines)
  have hnone := run_never_exits hpc hrun
  rw [htrace] at hnone
  simp [systemCalls, entry] at hnone

/-- An application with four bytes in .bss, one constructor and no destructors. -/
theorem start_not_completes_four :
    ¬ (⟨0x100, [0x1040], [], 0, 4, 0x1080⟩ : Application).Completes
      (fun _ m => some ⟨m.r0, m.r1, m.r2, m.zero, m.memory⟩) (entry 0 0 0 false [] fun _ => 0) := by
  rintro ⟨n, m', constructed, value, destroyed, hrun, -, -, htrace⟩
  have hnone := run_never_exits (by decide) hrun
  rw [htrace] at hnone
  simp [systemCalls, entry] at hnone

end WagtailStart
