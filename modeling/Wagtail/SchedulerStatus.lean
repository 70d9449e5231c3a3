import Wagtail.ProcessImage
import Wagtail.SchedulerChildren

/-!
# The status of a wait

What a call of `wait` writes: nothing before its caller is chosen again, and
then the word at the location that the call has named. The block of a call that
is refused writes what its memory held before, and no block asks whether the
caller may write there.
-/
namespace WagtailProcess

open WagtailMmu

/-- The word at this address lies in pages that the user of the table can write. -/
def World.WordWritable (w : World) (table address : Nat) : Prop :=
  table ≠ 0 ∧ ∀ i < 4, ∃ entry, descriptor w.memory (w.tables table) (address + i) = some entry ∧
    UserWritable entry

end WagtailProcess

namespace WagtailScheduler

open WagtailKqueue
open WagtailMmu
open WagtailProcess (World)
open Runs

variable {virtualToPhysical : Nat → Nat} {s s' : View} {a : Action} {b : Waitblock}
  {c q w pid statusLoc : Nat} {exits : List Exit}

/-! ## What the call leads to -/

/-- There is something to wait for: a child that is counted, or the process of the queue that the
PID names. -/
def WaitsForSome (s : View) (pid : Nat) : Prop :=
  if pid = 0xffffffff ∨ pid = 0 then
    ∃ proc, s.process s.currentProcess = some proc ∧ proc.getNumChildren ≠ 0
  else ∃ q ∈ s.queue, ∃ proc, s.process q = some proc ∧ proc.pid = pid

/-- The process `c` waits for the process `q`, and gets the PID of what it has waited for. -/
structure WaitsNamed (s : View) (exits : List Exit) (c w q pid statusLoc : Nat) : Prop where
  waits : WaitsFor s exits c w q pid statusLoc
  named : ∀ x, firstExit q exits = some x → x.pid = pid

/-- The call of `c` is refused, and its block has this location. -/
structure RefusedAt (s : View) (c w statusLoc : Nat) : Prop where
  refused : Refused s c w
  location : ∀ b, s.waitblock w = some b → b.statusLoc = statusLoc

theorem moves_waitsNamed (hv : Valid s) (hm : Moves s a s')
    (h : WaitsNamed s exits c w q pid statusLoc) (hcur : s'.currentProcess ≠ c) :
    WaitsNamed s' (exits ++ exitsOf s a) c w q pid statusLoc := by
  refine ⟨moves_waitsFor hv hm h.waits hcur, fun x hx => ?_⟩
  rw [firstExit_append] at hx
  cases hfirst : firstExit q exits with
  | some y =>
    rw [hfirst, Option.some_or] at hx
    exact Option.some.inj hx ▸ h.named y hfirst
  | none =>
    rw [hfirst, Option.none_or] at hx
    obtain ⟨-, -, -, -, target, htarget, hpid, -⟩ := h.waits.pending hfirst
    obtain ⟨code, rfl⟩ := moves_firstExit hm htarget hx
    exact hpid

theorem moves_refusedAt (hv : Valid s) (hm : Moves s a s') (h : RefusedAt s c w statusLoc)
    (hcur : s'.currentProcess ≠ c) : RefusedAt s' c w statusLoc := by
  refine ⟨moves_refused hv hm h.refused hcur, fun b' hb' => ?_⟩
  obtain ⟨b, hb, hactive, -⟩ := h.refused.block
  have hsleeps := h.refused.sleeps
  rw [(moves_block hv hm hsleeps hcur).2 (hsleeps.untold hv hm hb hactive)] at hb'
  exact h.location b' hb'

/-- The call waits for any child, waits for one process, or is refused. -/
theorem wait_cases {registers : Registers} {memory : Waitblock} (hv : Valid s)
    (hm : Moves s (.event (.wait registers pid statusLoc w memory)) s') :
    (WaitsForSome s pid ∧ (pid = 0xffffffff ∨ pid = 0) ∧
      WaitsAny s' [] s.currentProcess w statusLoc) ∨
    (WaitsForSome s pid ∧ ¬ (pid = 0xffffffff ∨ pid = 0) ∧
      ∃ q, WaitsNamed s' [] s.currentProcess w q pid statusLoc) ∨
    (¬ WaitsForSome s pid ∧ RefusedAt s' s.currentProcess w statusLoc) := by
  cases hm with
  | @wait _ _ _ _ _ proc b target watch process h0 hw hnone hcurrent hpid hloc hcaller ha hP =>
    have hqueued : s.currentProcess ∈ s.queue ++ [s.currentProcess] :=
      List.mem_append_right _ (List.mem_singleton_self _)
    have hlistener := hv.kin.unlistened hcurrent (hv.running proc hcurrent)
    have hkind : b.AnyChild ↔ pid = 0xffffffff ∨ pid = 0 := by rw [Waitblock.AnyChild, hpid]
    cases ha with
    | children hany hproc hlen hactive =>
      rw [hcaller, hcurrent] at hproc
      obtain rfl := Option.some.inj hproc
      refine .inl ⟨?_, hkind.mp hany, ⟨hqueued, ⟨_, hP.self, rfl, rfl⟩, hw⟩, b,
        Function.update_self .., hany, hloc, hactive, by simp [childExits]⟩
      rw [WaitsForSome, if_pos (hkind.mp hany)]
      exact ⟨proc, hcurrent, hlen⟩
    | @process r other hnot hr hother hrpid hactive =>
      have hrc : r ≠ s.currentProcess := by
        rintro rfl
        exact hv.notQueued hr
      have hnew := hP.other r hrc
      rw [hother, Option.map_some, if_pos rfl] at hnew
      refine .inr (.inl ⟨?_, mt hkind.mpr hnot, r, ⟨⟨hqueued, ⟨_, hP.self, rfl, hlistener⟩, hw⟩,
        fun _ => ⟨b, Function.update_self .., hloc, hactive, _, hnew, hrpid.trans hpid,
          List.mem_cons_self⟩, by simp [firstExit]⟩, by simp [firstExit]⟩)
      rw [WaitsForSome, if_neg (mt hkind.mpr hnot)]
      exact ⟨r, hr, other, hother, hrpid.trans hpid⟩
    | nothing hchildless hunnamed hactive hterminated =>
      refine .inr (.inr ⟨?_, ⟨⟨hqueued, ⟨_, hP.self, rfl, hlistener⟩, hw⟩, b,
        Function.update_self .., hactive, hterminated⟩, fun b' hb' => ?_⟩)
      · unfold WaitsForSome
        split_ifs with hany
        · rintro ⟨parent, hparent, hne⟩
          exact hne (hchildless (hkind.mpr hany) parent (by rwa [hcaller]))
        · rintro ⟨q, hq, named, hnamed, hnamedpid⟩
          exact hunnamed (mt hkind.mp hany) q hq named hnamed (hnamedpid.trans hpid.symm)
      · have hsame : Function.update s.waitblock w (some b) w = some b' := hb'
        rw [Function.update_self] at hsame
        exact Option.some.inj hsame ▸ hloc

/-! ## What a step writes -/

/-- A step writes at most the word that a block asks for, and the block is the one of the process
that it resumes. -/
theorem moves_stores (hv : Valid s) (hm : Moves s a s') : s'.stores = s.stores ∨
    ∃ proc b, s.process s'.currentProcess = some proc ∧ s.waitblock proc.block = some b ∧
      b.caller = s'.currentProcess ∧
      s'.stores = s.stores ++ [⟨proc.addrspace.table, b.statusLoc, b.exitCode⟩] := by
  cases hm with
  | schedule => exact .inl rfl
  | halt => exact .inl rfl
  | putBack => exact .inl rfl
  | run => exact .inl rfl
  | exit => exact .inl rfl
  | wait => exact .inl rfl
  | fork => exact .inl rfl
  | abort => exact .inl rfl
  | @release _ next _ chosen b _ hnext h0 hb =>
    obtain ⟨b', hb', hcaller⟩ := hv.kin.block next chosen hnext h0
    obtain rfl := Option.some.inj (hb.symm.trans hb')
    by_cases hloc : b.statusLoc = 0
    · exact .inl (by simp [hloc])
    · exact .inr ⟨chosen, b, hnext, hb, hcaller, by simp [hloc]⟩

/-- What a step writes, it writes for another process than `c`: from the block of that one. -/
def WritesForOther (c : Nat) (s t : History) : Prop :=
  t.kernel.stores = s.kernel.stores ∨ ∃ p proc b, p ≠ c ∧ s.kernel.process p = some proc ∧
    s.kernel.waitblock proc.block = some b ∧ b.caller = p ∧
    t.kernel.stores = s.kernel.stores ++ [⟨proc.addrspace.table, b.statusLoc, b.exitCode⟩]

theorem dozing_writes {s t : History} (hv : Valid s.kernel.view)
    (hstep : Dozing virtualToPhysical c s a t) : WritesForOther c s t := by
  obtain hsame | ⟨bare, b, hbare, hb, hcaller, hstores⟩ :=
    moves_stores hv (step_moves hv hstep.1.1)
  · exact .inl hsame
  · obtain ⟨proc, hproc, rfl⟩ := exists_bareOf hbare
    exact .inr ⟨_, proc, b, hstep.2, hproc, hb, hcaller, hstores⟩

/-! ## The answer -/

/-- The caller is resumed with the answer that this termination gives. -/
def AnsweredBy (t u : History) (c statusLoc : Nat) (x : Exit) : Prop :=
  ∃ chosen, u.kernel.process c = some chosen ∧ chosen.registers.r r0 = x.pid ∧
    u.kernel.stores = t.kernel.stores ++
      if statusLoc = 0 then [] else [⟨chosen.addrspace.table, statusLoc, x.code⟩]

/-- What is waited for answers with its first termination, and is not answered before. -/
theorem WaitsNamed.answered {t u : History} (hv : Valid t.kernel.view)
    (h : WaitsNamed t.kernel.view t.exits c w q pid statusLoc)
    (hstep : HistoryStep virtualToPhysical t a u) (hcur : u.kernel.currentProcess = c) :
    ∃ x, firstExit q t.exits = some x ∧ x.pid = pid ∧ AnsweredBy t u c statusLoc x := by
  obtain ⟨b, chosen, hb, hinactive, hchosen, hr, hstores⟩ :=
    step_chosen hv hstep.1 h.waits.sleeps hcur
  cases hfirst : firstExit q t.exits with
  | none =>
    obtain ⟨b', hb', -, hactive, -⟩ := h.waits.pending hfirst
    rw [← Option.some.inj (hb.symm.trans hb'), hinactive] at hactive
    cases hactive
  | some x =>
    obtain ⟨b', hb', hloc, -, hpid, hcode⟩ := h.waits.answered x hfirst
    obtain rfl := Option.some.inj (hb.symm.trans hb')
    have hnamed := h.named x hfirst
    refine ⟨x, rfl, hnamed, chosen, hchosen, hr.trans (hpid.trans hnamed.symm), ?_⟩
    rw [hstores, hloc, hcode]

/-- A refused call is answered with `-1`, and its block writes all the same. -/
theorem RefusedAt.answered {t u : History} (hv : Valid t.kernel.view)
    (h : RefusedAt t.kernel.view c w statusLoc)
    (hstep : HistoryStep virtualToPhysical t a u) (hcur : u.kernel.currentProcess = c) :
    ∃ chosen value, u.kernel.process c = some chosen ∧ chosen.registers.r r0 = 0xffffffff ∧
      u.kernel.stores = t.kernel.stores ++
        if statusLoc = 0 then [] else [⟨chosen.addrspace.table, statusLoc, value⟩] := by
  obtain ⟨b, chosen, hb, -, hchosen, hr, hstores⟩ :=
    step_chosen hv hstep.1 h.refused.sleeps hcur
  obtain ⟨b', hb', -, hpid⟩ := h.refused.block
  obtain rfl := Option.some.inj (hb.symm.trans hb')
  refine ⟨chosen, b.exitCode, hchosen, hr.trans hpid, ?_⟩
  rw [hstores, h.location b hb]

/-- A process of the queue keeps its address space. -/
theorem step_addrspace {k t : Kernel} {old new : Process} (hv : Valid k.view)
    (hstep : ForkStep virtualToPhysical k a t) (hqueued : c ∈ k.view.queue)
    (hold : k.process c = some old) (hnew : t.process c = some new) :
    new.addrspace = old.addrspace := by
  have hm := step_moves hv hstep
  obtain ⟨bare, hbare, hkeeps⟩ := moves_keeps hm (bareOf_some hold) (moves_exits hv hm hqueued)
  rw [show t.view.process c = some new.bare from bareOf_some hnew, Option.some.injEq] at hbare
  have haddrspace : new.bare.addrspace = old.bare.addrspace := hbare ▸ hkeeps.addrspace
  exact haddrspace

/-! ## Every run up to the resumption -/

/-- The caller is resumed, and all that is written then is the word at its location. It can be
written by the caller, which was blocked by the call, and the word is the exit code of the process
whose termination has answered the call; where the call returns `-1` there is none. -/
def ResumesWith (user : World) (after t u : History) (c statusLoc : Nat) : Prop :=
  ∃ chosen written, u.kernel.process c = some chosen ∧
    u.kernel.stores = t.kernel.stores ++ written ∧
    (written ≠ [] → isBlocking after.kernel c = some true ∧
      user.WordWritable chosen.addrspace.table statusLoc ∧
      ∃ x ∈ t.exits, chosen.registers.r r0 = x.pid ∧
        written = [⟨chosen.addrspace.table, statusLoc, x.code⟩]) ∧
    (chosen.registers.r r0 = 0xffffffff → written = [])

/-- Nothing is written for the call before the caller is resumed. -/
structure WritesStatus (virtualToPhysical : Nat → Nat) (user : World) (before after t u : History)
    (more : List Action) (statusLoc : Nat) : Prop where
  call : after.kernel.stores = before.kernel.stores
  asleep : ∀ done a rest s s', more = done ++ a :: rest →
    Run (Dozing virtualToPhysical before.kernel.currentProcess) { after with exits := [] } done s →
    Dozing virtualToPhysical before.kernel.currentProcess s a s' →
    WritesForOther before.kernel.currentProcess s s'
  resumed : ResumesWith user after t u before.kernel.currentProcess statusLoc

/-- No word is asked for, or one that the caller can write; there is something to wait for, and a
child that answers does not have the PID `-1`. -/
def AsksProperly (user : World) (before t : History) (pid statusLoc : Nat) : Prop :=
  statusLoc = 0 ∨ WaitsForSome before.kernel.view pid ∧
    (∀ caller, t.kernel.process before.kernel.currentProcess = some caller →
      user.WordWritable caller.addrspace.table statusLoc) ∧
    (pid = 0xffffffff ∨ pid = 0 →
      ∀ x, (childExits before.kernel.currentProcess t.exits).getLast? = some x →
        x.pid ≠ 0xffffffff)

/-- What answers a call: the last child that has terminated, or the process of this PID. -/
def Answers (t : History) (c pid : Nat) (x : Exit) : Prop :=
  x ∈ t.exits ∧ ((pid = 0xffffffff ∨ pid = 0) ∧ (childExits c t.exits).getLast? = some x ∨
    ¬ (pid = 0xffffffff ∨ pid = 0) ∧ x.pid = pid)

/-- The outcomes of a call: what was waited for has answered, or the call is refused. -/
inductive Outcome (before after t u : History) (pid statusLoc : Nat) : Prop where
  | answered {x : Exit} : WaitsForSome before.kernel.view pid →
      isBlocking after.kernel before.kernel.currentProcess = some true →
      Answers t before.kernel.currentProcess pid x →
      AnsweredBy t u before.kernel.currentProcess statusLoc x →
      Outcome before after t u pid statusLoc
  | refused {chosen : Process} {value : Nat} : ¬ WaitsForSome before.kernel.view pid →
      u.kernel.process before.kernel.currentProcess = some chosen →
      chosen.registers.r r0 = 0xffffffff →
      u.kernel.stores = t.kernel.stores ++ (if statusLoc = 0 then [] else
        [⟨chosen.addrspace.table, statusLoc, value⟩]) →
      Outcome before after t u pid statusLoc

/-- Every call that is resumed has an outcome, and its caller has slept in the queue until then. -/
theorem run_outcome {before after t u : History} {registers : Registers} {memory : Waitblock}
    {more : List Action} (hv : Valid before.kernel.view)
    (hwait : HistoryStep virtualToPhysical before
      (.event (.wait registers pid statusLoc w memory)) after)
    (hmore : Run (Dozing virtualToPhysical before.kernel.currentProcess)
      { after with exits := [] } more t)
    (hstep : HistoryStep virtualToPhysical t a u)
    (hchosen : u.kernel.currentProcess = before.kernel.currentProcess) :
    Valid t.kernel.view ∧ Outcome before after t u pid statusLoc ∧
      ∃ listener, Sleeps t.kernel.view before.kernel.currentProcess w listener := by
  have hv' := step_valid hv hwait.1
  obtain ⟨hsome, hany, hwaits⟩ | ⟨hsome, hnot, q, hwaits⟩ | ⟨hnone, hrefused⟩ :=
    wait_cases hv (step_moves hv hwait.1)
  · obtain ⟨b, hb, -, -, hactive, -⟩ := hwaits.block
    have hblocked := isBlocking_sleeps (k := after.kernel) hwaits.sleeps hb
    obtain ⟨hvt, hwaits', -⟩ := dozing_waitsAny hv' hwaits hmore
    obtain ⟨x, chosen, hlast, hprocess, hr, hstores⟩ := dozing_chosen hvt hwaits' hstep hchosen
    have hmem : x ∈ t.exits := (List.mem_filter.mp (List.mem_of_getLast? hlast)).1
    exact ⟨hvt, .answered hsome (hblocked.trans (congrArg some hactive))
      ⟨hmem, .inl ⟨hany, hlast⟩⟩ ⟨chosen, hprocess, hr, hstores⟩, _, hwaits'.sleeps⟩
  · obtain ⟨b, hb, -, hactive, -⟩ := hwaits.waits.pending rfl
    have hblocked := isBlocking_sleeps (k := after.kernel) hwaits.waits.sleeps hb
    obtain ⟨hvt, hwaits'⟩ := dozing_invariant (s := { after with exits := [] })
      (I := fun s exits => WaitsNamed s exits before.kernel.currentProcess w q pid statusLoc)
      hv' hmore hwaits fun _ _ _ _ => moves_waitsNamed
    obtain ⟨x, hfirst, hpid, hanswer⟩ := hwaits'.answered hvt hstep hchosen
    exact ⟨hvt, .answered hsome (hblocked.trans (congrArg some hactive))
      ⟨List.mem_of_find?_eq_some hfirst, .inr ⟨hnot, hpid⟩⟩ hanswer, _, hwaits'.waits.sleeps⟩
  · obtain ⟨hvt, hrefused'⟩ := dozing_invariant (s := { after with exits := [] })
      (I := fun s _ => RefusedAt s before.kernel.currentProcess w statusLoc)
      hv' hmore hrefused fun _ _ _ _ => moves_refusedAt
    obtain ⟨chosen, value, hprocess, hr, hstores⟩ := hrefused'.answered hvt hstep hchosen
    exact ⟨hvt, .refused hnone hprocess hr hstores, _, hrefused'.refused.sleeps⟩

/-- An answer is `-1` only as the PID of a child. -/
theorem Answers.ne_minus {t : History} {x : Exit} (h : Answers t c pid x) : x.pid ≠ 0xffffffff ↔
    (pid = 0xffffffff ∨ pid = 0 →
      ∀ y, (childExits c t.exits).getLast? = some y → y.pid ≠ 0xffffffff) := by
  obtain ⟨-, ⟨hany, hlast⟩ | ⟨hnot, hpid⟩⟩ := h
  · constructor
    · intro hne _ y hy
      rwa [← Option.some.inj (hlast.symm.trans hy)]
    · exact fun hall => hall hany x hlast
  · constructor
    · exact fun _ hany => absurd hany hnot
    · rintro - hminus
      exact hnot (.inl (hpid ▸ hminus))

/-- An answer writes to a word that the caller can write, if to any, and is not `-1` then. -/
theorem AnsweredBy.resumesWith {user : World} {after t u : History} {caller : Process} {x : Exit}
    (h : AnsweredBy t u c statusLoc x) (hanswers : Answers t c pid x)
    (hblocked : isBlocking after.kernel c = some true)
    (htable : ∀ chosen, u.kernel.process c = some chosen → chosen.addrspace = caller.addrspace) :
    ResumesWith user after t u c statusLoc ↔ statusLoc = 0 ∨
      user.WordWritable caller.addrspace.table statusLoc ∧ x.pid ≠ 0xffffffff := by
  obtain ⟨chosen, hprocess, hr, hstores⟩ := h
  have haddrspace := htable chosen hprocess
  constructor
  · rintro ⟨chosen', written, hprocess', hstores', hwritten, hminus⟩
    obtain rfl := Option.some.inj (hprocess.symm.trans hprocess')
    by_cases hloc : statusLoc = 0
    · exact .inl hloc
    rw [if_neg hloc] at hstores
    have hsame := List.append_cancel_left (hstores.symm.trans hstores')
    have hne : written ≠ [] := by simp [← hsame]
    exact .inr ⟨haddrspace ▸ (hwritten hne).2.1, fun hx => hne (hminus (hr.trans hx))⟩
  · intro hproper
    refine ⟨chosen, _, hprocess, hstores, fun hne => ?_, fun hminus => ?_⟩
    · have hloc : statusLoc ≠ 0 := by
        rintro rfl
        simp at hne
      obtain hzero | ⟨hwritable, -⟩ := hproper
      · exact absurd hzero hloc
      · exact ⟨hblocked, haddrspace ▸ hwritable, x, hanswers.1, hr, if_neg hloc⟩
    · obtain hzero | ⟨-, hne⟩ := hproper
      · exact if_pos hzero
      · exact absurd (hr.symm.trans hminus) hne

/-- A refusal writes too, unless no word is asked for. -/
theorem refused_resumesWith {user : World} {after t u : History} {chosen : Process} {value : Nat}
    (hprocess : u.kernel.process c = some chosen) (hr : chosen.registers.r r0 = 0xffffffff)
    (hstores : u.kernel.stores = t.kernel.stores ++
      if statusLoc = 0 then [] else [⟨chosen.addrspace.table, statusLoc, value⟩]) :
    ResumesWith user after t u c statusLoc ↔ statusLoc = 0 := by
  constructor
  · rintro ⟨chosen', written, hprocess', hstores', -, hminus⟩
    obtain rfl := Option.some.inj (hprocess.symm.trans hprocess')
    rw [hminus hr, hstores] at hstores'
    by_cases hloc : statusLoc = 0
    · exact hloc
    · simp [hloc] at hstores'
  · rintro rfl
    exact ⟨chosen, [], hprocess, by simpa using hstores, fun hne => absurd rfl hne, fun _ => rfl⟩

theorem moves_wait_stores {registers : Registers} {memory : Waitblock}
    (hm : Moves s (.event (.wait registers pid statusLoc w memory)) s') :
    s'.stores = s.stores := by
  cases hm
  rfl

/-- The call writes what it may in exactly the runs in which it asks properly. -/
theorem run_writesStatus {mmu : Mmu} {actions more : List Action} {before after t u : History}
    {registers : Registers} {memory : Waitblock} (user : World)
    (hrun : Run (HistoryStep virtualToPhysical) (History.start (initial mmu)) actions before)
    (hwait : HistoryStep virtualToPhysical before
      (.event (.wait registers pid statusLoc w memory)) after)
    (hmore : Run (Dozing virtualToPhysical before.kernel.currentProcess)
      { after with exits := [] } more t)
    (hstep : HistoryStep virtualToPhysical t a u)
    (hchosen : u.kernel.currentProcess = before.kernel.currentProcess) :
    WritesStatus virtualToPhysical user before after t u more statusLoc ↔
      AsksProperly user before t pid statusLoc := by
  have hv := (run_lives hrun).1
  have hv' := step_valid hv hwait.1
  obtain ⟨hvt, houtcome, listener, hsleeps⟩ := run_outcome hv hwait hmore hstep hchosen
  -- What is left is what happens at the end.
  have hresumed : WritesStatus virtualToPhysical user before after t u more statusLoc ↔
      ResumesWith user after t u before.kernel.currentProcess statusLoc := by
    refine ⟨fun h => h.resumed, fun h => ⟨moves_wait_stores (step_moves hv hwait.1), ?_, h⟩⟩
    intro done a rest s s' _ hdone hnext
    exact dozing_writes (dozing_invariant (s := { after with exits := [] }) (I := fun _ _ => True)
      hv' hdone trivial fun _ _ _ _ _ _ _ _ => trivial).1 hnext
  rw [hresumed]
  cases houtcome with
  | @answered x hsome hblocked hanswers hanswer =>
    obtain ⟨bare, hbare, -⟩ := hsleeps.block
    obtain ⟨caller, hcaller, -⟩ := exists_bareOf hbare
    rw [hanswer.resumesWith hanswers hblocked fun chosen =>
      step_addrspace hvt hstep.1 hsleeps.queued hcaller, hanswers.ne_minus]
    refine or_congr_right ⟨fun ⟨hwritable, hall⟩ => ⟨hsome, fun other hother => ?_, hall⟩,
      fun ⟨_, hwritable, hall⟩ => ⟨hwritable caller hcaller, hall⟩⟩
    rwa [← Option.some.inj (hcaller.symm.trans hother)]
  | refused hnone hprocess hr hstores =>
    rw [refused_resumesWith hprocess hr hstores]
    exact (or_iff_left fun h => hnone h.1).symm

/-! ## A process that waits -/

/-- The data page at `0x5000` is mapped in the table. -/
def userWorld : World where
  tables := fun _ => ⟨fun _ => 0x9000 ||| L1.typePageTable, []⟩
  memory := ⟨fun _ => some (PageTable.zeroed.addEntry 5 0x7000 .rwRw .data true), 0,
    ⟨true, 0, ⟨0, []⟩⟩⟩
  bytes := fun _ => 0
  mmu := bootMmu
  dataAborts := []

theorem userWorld_writable : userWorld.WordWritable 0x8000 0x5000 := by
  have hall : ∀ i : Fin 4, descriptor userWorld.memory (userWorld.tables 0x8000) (0x5000 + i) =
      some (pageEntry 0x7000 .rwRw .data true) := by decide
  exact ⟨by decide, fun i hi => ⟨_, hall ⟨i, hi⟩, by decide⟩⟩

/-- Process 1 runs, with thread 2 in the queue. -/
def userRuns : History :=
  (([.schedule 0x1000 (newUser 1 0x8000), .schedule 0x2000 (newThread 2), .interrupt interrupted].map
    Action.event).foldlM historyStep (History.start (initial bootMmu))).get (by decide +kernel)

/-- It waits for a PID, and wants the exit code at `0x5000`. -/
def userWaits (pid : Nat) : Action :=
  .event (.wait interrupted pid 0x5000 0x3000 ⟨0, 0, 0xdeadbeef, 0, 0, false⟩)

def userWaited : History := (historyStep userRuns (userWaits 2)).get (by decide +kernel)

/-- Thread 2 runs and exits with 7. -/
def userLeft : History := (([.interrupt interrupted, .exit interrupted 7].map Action.event).foldlM
  (dozingStep 0x1000) { userWaited with exits := [] }).get (by decide +kernel)

def userResumed : History :=
  (historyStep userLeft (.event (.interrupt interrupted))).get (by decide +kernel)

theorem userRuns_run : ∃ actions, Run (HistoryStep id) (History.start (initial bootMmu)) actions
    userRuns :=
  ⟨_, Run.of_foldlM (fun _ _ _ => historyStep_step) (Option.some_get _).symm⟩

theorem userLeft_run : Run (Dozing id 0x1000) { userWaited with exits := [] }
    ([.interrupt interrupted, .exit interrupted 7].map Action.event) userLeft :=
  Run.of_foldlM (fun _ _ _ => dozingStep_step) (Option.some_get _).symm

theorem userLeft_writes : WritesStatus id userWorld userRuns userWaited userLeft userResumed
    ([.interrupt interrupted, .exit interrupted 7].map Action.event) 0x5000 := by
  obtain ⟨_, hrun⟩ := userRuns_run
  have hcur : userRuns.kernel.currentProcess = 0x1000 := by decide +kernel
  have hcur' : userResumed.kernel.currentProcess = 0x1000 := by decide +kernel
  refine (run_writesStatus userWorld hrun (historyStep_step (Option.some_get _).symm)
    (hcur ▸ userLeft_run) (historyStep_step (Option.some_get _).symm)
    (hcur'.trans hcur.symm)).mpr (.inr ⟨?_, fun caller hcaller => ?_, fun hany => ?_⟩)
  · have hqueue : userRuns.kernel.view.queue = [0x2000] := by decide +kernel
    have hpid : (userRuns.kernel.view.process 0x2000).map Process.pid = some 2 := by decide +kernel
    obtain ⟨proc, hproc, hpid⟩ := Option.map_eq_some_iff.mp hpid
    exact ⟨0x2000, by simp [hqueue], proc, hproc, hpid⟩
  · have htable : (userLeft.kernel.process 0x1000).map (fun proc => proc.addrspace.table) =
        some 0x8000 := by decide +kernel
    rw [hcur] at hcaller
    rw [hcaller, Option.map_some, Option.some.injEq] at htable
    exact htable ▸ userWorld_writable
  · exact absurd hany (by decide)

/-- No process has the PID 5. -/
def userRefused : History := (historyStep userRuns (userWaits 5)).get (by decide +kernel)

def userBothQueued : History := (dozingStep 0x1000 { userRefused with exits := [] }
  (.event (.interrupt interrupted))).get (by decide +kernel)

def userReturned : History :=
  (historyStep userBothQueued (.event (.interrupt interrupted))).get (by decide +kernel)

theorem userReturned_step :
    HistoryStep id userBothQueued (.event (.interrupt interrupted)) userReturned :=
  historyStep_step (Option.some_get _).symm

/-- A refused call writes what the memory of its block held before. -/
theorem refused_writes : ¬ ∀ (user : World) (mmu : Mmu) (actions more : List Action)
    (before after t u : History) (a : Action) (registers : Registers) (pid statusLoc w : Nat)
    (memory : Waitblock),
    Run (HistoryStep id) (History.start (initial mmu)) actions before →
    HistoryStep id before (.event (.wait registers pid statusLoc w memory)) after →
    Run (Dozing id before.kernel.currentProcess) { after with exits := [] } more t →
    HistoryStep id t a u → u.kernel.currentProcess = before.kernel.currentProcess →
    WritesStatus id user before after t u more statusLoc := by
  intro hclaim
  obtain ⟨_, hrun⟩ := userRuns_run
  have hcur : userRuns.kernel.currentProcess = 0x1000 := by decide +kernel
  have hcur' : userReturned.kernel.currentProcess = 0x1000 := by decide +kernel
  have hsleep : Run (Dozing id 0x1000) { userRefused with exits := [] }
      ([] ++ [.event (.interrupt interrupted)]) userBothQueued :=
    Run.nil.snoc (dozingStep_step (Option.some_get _).symm)
  obtain ⟨chosen, written, hchosen, hwritten, -, hminus⟩ := (hclaim userWorld
    _ _ _ _ _ _ _ _ _ _ _ _ _ hrun (historyStep_step (Option.some_get _).symm)
    (hcur ▸ hsleep) userReturned_step (hcur'.trans hcur.symm)).resumed
  have hr : (userReturned.kernel.process 0x1000).map (fun proc => proc.registers.r r0) =
      some 0xffffffff := by decide +kernel
  have hstores : userBothQueued.kernel.stores = [] ∧
      userReturned.kernel.stores = [⟨0x8000, 0x5000, 0xdeadbeef⟩] := by decide +kernel
  rw [hcur] at hchosen
  rw [hchosen, Option.map_some, Option.some.injEq] at hr
  rw [hminus hr, hstores.1, hstores.2] at hwritten
  cases hwritten

end WagtailScheduler
