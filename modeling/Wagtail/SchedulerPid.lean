import Wagtail.SchedulerView

/-!
# Which PID a new process gets

`scheduler::allocate_pid` takes the first value from the counter on that no
queued process has. It does not look at the running process, at processes that
are not scheduled yet, or at the values that `wait` gives a meaning.
-/
namespace WagtailScheduler

open Word (wrap sub)

variable {k t : Kernel} {constructed : List Nat} {pid : Nat}

/-- The PIDs of the processes at these addresses. -/
def pidsAt (k : Kernel) (ps : List Nat) : List Nat :=
  ps.filterMap fun p => (k.process p).map (·.pid)

theorem mem_pidsAt {ps : List Nat} :
    pid ∈ pidsAt k ps ↔ ∃ p ∈ ps, ∃ proc, k.process p = some proc ∧ proc.pid = pid := by
  simp [pidsAt, List.mem_filterMap]

/-- The PIDs that the loop of `allocate_pid` compares with. -/
def queuedPids (k : Kernel) : List Nat := pidsAt k k.processQueue.elements

/-- The live processes outside of the queue: the running one, and those that are `constructed`
but not scheduled yet. -/
def unqueued (k : Kernel) (constructed : List Nat) : List Nat :=
  (if k.currentProcess = 0 then [] else [k.currentProcess]) ++ constructed

def livePids (k : Kernel) (constructed : List Nat) : List Nat :=
  pidsAt k (k.processQueue.elements ++ unqueued k constructed)

/-- Every live process exists, and they have different words as PIDs. -/
structure Live (k : Kernel) (constructed : List Nat) : Prop where
  exist : ∀ p ∈ k.processQueue.elements ++ unqueued k constructed, p ≠ 0 ∧ k.process p ≠ none
  distinct : (livePids k constructed).Nodup
  word : ∀ pid ∈ livePids k constructed, pid < 2 ^ 32

/-- No live process has the PID, and it means nothing else. -/
def FreshPid (k : Kernel) (constructed : List Nat) (pid : Nat) : Prop :=
  pid ∉ livePids k constructed ∧ pid ≠ 0 ∧ pid ≠ 0xffffffff

/-! ## The search -/

/-- The attempts that the recursion of `allocate_pid` can make before it repeats one. -/
def maxAttempts : Nat := 2 ^ 32

theorem getProcess_zero_or (h : Live k constructed) (pid : Nat) :
    getProcess k pid = some 0 ∧ pid ∉ queuedPids k ∨
      ∃ p ≠ 0, getProcess k pid = some p ∧ pid ∈ queuedPids k := by
  have hqueue : ∀ p ∈ k.processQueue.elements, p ≠ 0 ∧ k.process p ≠ none := fun p hp =>
    h.exist p (List.mem_append_left _ hp)
  obtain ⟨h0, hnone⟩ | ⟨p, hp, proc, hproc, hpid, hfind⟩ :=
    findProcess_cases pid fun p hp => (hqueue p hp).2
  · refine .inl ⟨h0, fun hmem => ?_⟩
    obtain ⟨p, hp, proc, hproc, hpid⟩ := mem_pidsAt.mp hmem
    exact hnone p hp proc hproc hpid
  · exact .inr ⟨p, (hqueue p hp).1, hfind, mem_pidsAt.mpr ⟨p, hp, proc, hproc, hpid⟩⟩

/-- The counter is no part of what is live. -/
theorem Live.count (h : Live k constructed) (n : Nat) :
    Live { k with nextPid := n } constructed := ⟨h.exist, h.distinct, h.word⟩

/-- The first value from the counter on that no queued process has. -/
theorem allocatePid_first {i fuel : Nat} (h : Live k constructed) (hfuel : i < fuel)
    (hword : k.nextPid < 2 ^ 32) (hused : ∀ j < i, wrap (k.nextPid + j) ∈ queuedPids k)
    (hunused : wrap (k.nextPid + i) ∉ queuedPids k) :
    ∃ t, allocatePid fuel k = some (wrap (k.nextPid + i), t) := by
  induction i generalizing k fuel with
  | zero =>
    obtain ⟨fuel, rfl⟩ : ∃ n, fuel = n + 1 := ⟨fuel - 1, by omega⟩
    have hfirst : wrap (k.nextPid + 0) = k.nextPid := Word.wrap_of_lt hword
    rw [hfirst] at hunused ⊢
    obtain ⟨hget, -⟩ | ⟨p, -, -, hmem⟩ :=
      getProcess_zero_or (h.count (wrap (k.nextPid + 1))) k.nextPid
    · simp only [allocatePid, hget, Option.bind_eq_bind, Option.bind_some, if_true]
      exact ⟨_, rfl⟩
    · exact absurd hmem hunused
  | succ i ih =>
    obtain ⟨fuel, rfl⟩ : ∃ n, fuel = n + 1 := ⟨fuel - 1, by omega⟩
    have hfirst : k.nextPid ∈ queuedPids k := by
      have := hused 0 (by omega)
      rwa [Nat.add_zero, Word.wrap_of_lt hword] at this
    obtain ⟨-, hmem⟩ | ⟨p, hp, hget, -⟩ :=
      getProcess_zero_or (h.count (wrap (k.nextPid + 1))) k.nextPid
    · exact absurd hfirst hmem
    · have hshift : ∀ j, wrap (wrap (k.nextPid + 1) + j) = wrap (k.nextPid + (j + 1)) := by
        intro j
        simp only [wrap]
        omega
      have hrest := ih (k := { k with nextPid := wrap (k.nextPid + 1) }) (h.count _)
        (show i < fuel by omega) (Word.wrap_lt _)
        (fun j hj => (hshift j).symm ▸ hused (j + 1) (by omega))
        ((hshift i).symm ▸ hunused)
      rw [hshift] at hrest
      simpa only [allocatePid, hget, Option.bind_eq_bind, Option.bind_some, if_neg hp] using hrest

/-! ## When the PID is fresh -/

/-- A queued process has the PID, or the counter comes to a value that no queued process has
before it comes to the PID. -/
def Passed (k : Kernel) (pid : Nat) : Prop :=
  pid ∈ queuedPids k ∨ ∃ j < sub pid k.nextPid, wrap (k.nextPid + j) ∉ queuedPids k

/-- The search passes exactly the values that it does not end at. -/
theorem passed_iff {i : Nat} (hi : i < 2 ^ 32) (hword : k.nextPid < 2 ^ 32)
    (hpid : pid < 2 ^ 32) (hused : ∀ j < i, wrap (k.nextPid + j) ∈ queuedPids k)
    (hunused : wrap (k.nextPid + i) ∉ queuedPids k) :
    Passed k pid ↔ wrap (k.nextPid + i) ≠ pid := by
  have hback : wrap (k.nextPid + sub pid k.nextPid) = pid := by
    simp only [wrap, sub]
    omega
  have hsub : sub pid k.nextPid < 2 ^ 32 := Nat.mod_lt _ (by decide)
  constructor
  · rintro (hmem | ⟨j, hj, hfree⟩) rfl
    · exact hunused hmem
    · have hle : i ≤ j := Nat.le_of_not_lt fun hlt => hfree (hused j hlt)
      simp only [sub, wrap] at hj
      omega
  · intro hne
    rcases Nat.lt_trichotomy (sub pid k.nextPid) i with hlt | heq | hlt
    · exact .inl (hback ▸ hused _ hlt)
    · rw [heq] at hback
      exact absurd hback hne
    · exact .inr ⟨i, hlt, hunused⟩

/-- While not all PIDs are in use, the search ends; its result is fresh if and only if it passes
the two special values and the PID of every live process outside of the queue. -/
theorem allocatePid_fresh_iff (h : Live k constructed) (hword : k.nextPid < 2 ^ 32)
    (hfree : (livePids k constructed).length < 2 ^ 32) :
    ∃ pid t, allocatePid maxAttempts k = some (pid, t) ∧
      (FreshPid k constructed pid ↔
        ∀ n ∈ 0 :: 0xffffffff :: pidsAt k (unqueued k constructed), Passed k n) := by
  have hsplit : livePids k constructed =
      queuedPids k ++ pidsAt k (unqueued k constructed) := List.filterMap_append
  rw [hsplit, List.length_append] at hfree
  have hexists := Word.exists_not_mem_wrap (l := queuedPids k) (by omega) k.nextPid
  obtain ⟨i, ⟨hi, hunused⟩, hmin⟩ : ∃ i, (i < 2 ^ 32 ∧ wrap (k.nextPid + i) ∉ queuedPids k) ∧
      ∀ j < i, ¬(j < 2 ^ 32 ∧ wrap (k.nextPid + j) ∉ queuedPids k) := by
    classical
    exact ⟨Nat.find hexists, Nat.find_spec hexists, fun j hj => Nat.find_min hexists hj⟩
  have hused : ∀ j < i, wrap (k.nextPid + j) ∈ queuedPids k := by
    intro j hj
    by_contra hnot
    exact hmin j hj ⟨by omega, hnot⟩
  obtain ⟨t, ht⟩ := allocatePid_first h hi hword hused hunused
  refine ⟨_, t, ht, ?_⟩
  have hpassed : ∀ n < 2 ^ 32, (Passed k n ↔ wrap (k.nextPid + i) ≠ n) := fun n hn =>
    passed_iff hi hword hn hused hunused
  have houtside : ∀ n ∈ pidsAt k (unqueued k constructed), n < 2 ^ 32 := fun n hn =>
    h.word n (hsplit ▸ List.mem_append_right _ hn)
  rw [FreshPid, hsplit, List.mem_append, List.forall_mem_cons, List.forall_mem_cons,
    hpassed 0 (by decide), hpassed 0xffffffff (by decide)]
  constructor
  · rintro ⟨hlive, h0, hmax⟩
    exact ⟨h0, hmax, fun n hn =>
      (hpassed n (houtside n hn)).mpr fun he => hlive (.inr (he ▸ hn))⟩
  · rintro ⟨h0, hmax, hall⟩
    refine ⟨?_, h0, hmax⟩
    rintro (hmem | hmem)
    · exact hunused hmem
    · exact (hpassed _ (Word.wrap_lt _)).mp (hall _ hmem) rfl

/-! ## Two threads -/

/-- Thread 5 runs and thread 7 waits for its turn. -/
def counted (nextPid : Nat) : Kernel :=
  { initial bootMmu with
    processQueue := ⟨[0x2000], 1⟩
    currentProcess := 0x1000
    registerBlock := 0x1000
    nextPid := nextPid
    process := fun p =>
      if p = 0x1000 then some (newThread 5) else if p = 0x2000 then some (newThread 7) else none }

theorem counted_live (nextPid : Nat) : Live (counted nextPid) [] := by
  have hpids : livePids (counted nextPid) [] = [7, 5] := rfl
  refine ⟨by simp [counted, unqueued], ?_, ?_⟩
  · rw [hpids]
    decide
  · rw [hpids]
    decide

/-- A counter that comes to the queued thread passes it. -/
theorem counted_fresh : ∃ pid t, allocatePid maxAttempts (counted 7) = some (pid, t) ∧
    FreshPid (counted 7) [] pid := by
  obtain ⟨pid, t, hpid, hfresh⟩ :=
    allocatePid_fresh_iff (counted_live 7) (by decide) (show 2 < 2 ^ 32 by decide)
  refine ⟨pid, t, hpid, hfresh.mpr ?_⟩
  have hunused : wrap (7 + 1) ∉ queuedPids (counted 7) := by decide
  intro n hn
  refine .inr ⟨1, ?_, hunused⟩
  revert n
  decide

/-- A counter that has come around to the running thread hands out its PID again. -/
theorem counted_collides : Live (counted 5) [] ∧ 5 ∈ livePids (counted 5) [] ∧
    ∃ t, allocatePid maxAttempts (counted 5) = some (5, t) := by
  refine ⟨counted_live 5, by decide, ?_⟩
  exact allocatePid_first (i := 0) (counted_live 5) (by decide) (by decide) (by simp) (by decide)

end WagtailScheduler
