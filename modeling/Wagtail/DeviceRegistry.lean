import Wagtail.DeviceMgr

/-!
# The device manager as a registry

The array of the manager shows a registry as long as every number in use is at
most the capacity. Numbers are also counted up for devices that are refused, so
that a later device gets a number too far, or one outside of the storage.
-/
namespace WagtailDeviceMgr

open WagtailExpandableArray
open WagtailKstring
open Runs (Run Guarded bind_of_ok)

variable {name : Nat → Kstring} {m : DeviceMgr} {r : Registry}

/-! ## What the array shows -/

structure Shows (name : Nat → Kstring) (m : DeviceMgr) (r : Registry) : Prop where
  exact : m.devices.Exact
  slot : ∀ i, m.devices.array.getD i 0 = r.device i
  next_le : r.next ≤ m.devices.array.length
  distinct : r.Distinct name

theorem initial_shows (name : Nat → Kstring) : Shows name .initial .empty where
  exact := ⟨rfl, rfl, by decide⟩
  slot i := by
    simp only [DeviceMgr.initial, Registry.empty, List.getD_eq_getElem?_getD]
    rw [List.getElem?_replicate]
    split <;> rfl
  next_le := Nat.zero_le _
  distinct := fun _ _ h => absurd rfl h

/-- The indices of the array are far from the sign bit. -/
theorem Shows.toInt_eq (h : Shows name m r) {n : Nat} (hn : n ≤ m.devices.array.length) :
    toInt n = n := by
  have hroom := h.exact.room
  rw [h.exact.capacity, maxElements] at hroom
  exact if_pos (by omega)

theorem Shows.slot_getElem? (h : Shows name m r) {n : Nat} (hn : n < m.devices.array.length) :
    m.devices.array[n]? = some (r.device n) := by
  rw [← h.slot n, List.getD_eq_getElem?_getD, List.getElem?_eq_getElem hn, Option.getD_some]

theorem Shows.lt_of_device (h : Shows name m r) {n : Nat} (hn : r.device n ≠ 0) :
    n < m.devices.array.length := by
  by_contra hle
  rw [← h.slot n, List.getD_eq_getElem?_getD, List.getElem?_eq_none (by omega)] at hn
  exact hn rfl

/-! ## Lookups -/

/-- The loop finds the device with the name among the rest of the slots, or nothing. -/
theorem Shows.findDevice (h : Shows name m r) (key : Kstring) {n i : Nat}
    (hn : i + n = m.devices.array.length) :
    (findDevice name m.devices key n i = .ok 0 ∧
        ∀ j, i ≤ j → r.device j ≠ 0 → name (r.device j) ≠ key) ∨
      ∃ j, r.device j ≠ 0 ∧ name (r.device j) = key ∧
        findDevice name m.devices key n i = .ok (r.device j) := by
  induction n generalizing i with
  | zero =>
    refine .inl ⟨rfl, fun j hij hj => ?_⟩
    have := h.lt_of_device hj
    omega
  | succ n ih =>
    have helement : m.devices.element i = .ok (r.device i) :=
      element_of_get (h.slot_getElem? (by omega))
    rw [WagtailDeviceMgr.findDevice, bind_of_ok helement]
    by_cases hi : r.device i ≠ 0 ∧ name (r.device i) = key
    · exact .inr ⟨i, hi.1, hi.2, if_pos hi⟩
    · rw [if_neg hi]
      obtain ⟨hnone, hrest⟩ | hfound := ih (i := i + 1) (by omega)
      · refine .inl ⟨hnone, fun j hij hj hname => ?_⟩
        rcases Nat.lt_or_eq_of_le hij with hlt | rfl
        · exact hrest j hlt hj hname
        · exact hi ⟨hj, hname⟩
      · exact .inr hfound

theorem Shows.getDeviceByName (h : Shows name m r) (key : Kstring) :
    (getDeviceByName name m key = .ok 0 ∧ r.Free name key) ∨
      ∃ n, r.device n ≠ 0 ∧ name (r.device n) = key ∧
        getDeviceByName name m key = .ok (r.device n) := by
  have hlength : 0 + m.devices.capacity.toNat = m.devices.array.length := by
    rw [h.exact.capacity]
    omega
  obtain ⟨hnone, hfree⟩ | hfound := h.findDevice key hlength
  · exact .inl ⟨hnone, fun n hn => hfree n (Nat.zero_le n) hn⟩
  · exact .inr hfound

/-! ## Changes -/

/-- The counter is no part of what is shown. -/
theorem Shows.count (h : Shows name m r) (n : Nat) : Shows name { m with nextDevnum := n } r :=
  ⟨h.exact, h.slot, h.next_le, h.distinct⟩

/-- A device under a new name, or no device, at a number. -/
theorem Registry.Distinct.update (h : r.Distinct name) (n next : Nat) {dev : Nat}
    (hfree : dev ≠ 0 → r.Free name (name dev)) :
    Registry.Distinct name ⟨next, Function.update r.device n dev⟩ := by
  have hcases : ∀ i, Function.update r.device n dev i ≠ 0 →
      i = n ∧ dev ≠ 0 ∧ Function.update r.device n dev i = dev ∨
        r.device i ≠ 0 ∧ Function.update r.device n dev i = r.device i := by
    intro i hi
    by_cases he : i = n
    · subst he
      rw [Function.update_self] at hi
      exact .inl ⟨rfl, hi, Function.update_self ..⟩
    · rw [Function.update_of_ne he] at hi
      exact .inr ⟨hi, Function.update_of_ne he ..⟩
  intro i j hi hj hname
  obtain ⟨hin, hdev, hival⟩ | ⟨hi', hival⟩ := hcases i hi <;>
    obtain ⟨hjn, hdev', hjval⟩ | ⟨hj', hjval⟩ := hcases j hj <;>
    simp only [hival, hjval] at hname
  · exact hin.trans hjn.symm
  · exact absurd hname.symm (hfree hdev j hj')
  · exact absurd hname (hfree hdev' i hi')
  · exact h i j hi' hj' hname

/-- A slot up to the capacity is set, unless memory has run out. -/
theorem Shows.assign (h : Shows name m r) (memory : Nat → Nat) {n dev next : Nat}
    (hn : n ≤ m.devices.array.length)
    (hnext : next ≤ m.devices.array.length ∨ next = n + 1)
    (hfree : dev ≠ 0 → r.Free name (name dev)) :
    m.devices.assign memory (toInt n) dev = .error .memory ∨
      ∃ devices, m.devices.assign memory (toInt n) dev = .ok devices ∧
        Shows name { m with devices } ⟨next, Function.update r.device n dev⟩ := by
  rw [h.toInt_eq hn]
  obtain hmem | ⟨b, hb, hexact, hlt, hle, hget⟩ := h.exact.assign memory dev hn
  · exact .inl hmem
  · refine .inr ⟨b, hb, hexact, fun i => ?_, ?_, h.distinct.update n next hfree⟩
    · by_cases hi : i = n
      · simp [hget, hi]
      · simp only [List.getD_eq_getElem?_getD, hget, if_neg hi, Function.update_of_ne hi]
        rw [← h.slot i, List.getD_eq_getElem?_getD]
    · change next ≤ b.array.length
      omega

/-! ## Runs -/

/-- The manager, and how many devices have been accepted. -/
structure History where
  mgr : DeviceMgr
  accepted : Nat

def History.start : History := ⟨.initial, 0⟩

structure Event where
  call : Call
  memory : Nat → Nat
  result : Nat

/-- The event registers a device. -/
def Event.accepts (e : Event) : Bool :=
  match e.call with
  | .register _ => e.result ≠ refused
  | _ => false

/-- Only devices are registered. -/
def Call.Allowed : Call → Prop
  | .register dev => dev ≠ 0
  | _ => True

/-- A call that does not fail. -/
def Step (name : Nat → Kstring) (s : History) (e : Event) (t : History) : Prop :=
  e.call.Allowed ∧ perform name e.memory s.mgr e.call = .ok (e.result, t.mgr) ∧
    t.accepted = s.accepted + e.accepts.toNat

/-- A device under a new name comes before every refusal; the other numbers are at most the
capacity, and below it for a lookup. -/
def Numbered (name : Nat → Kstring) (s : History) : Call → Prop
  | .register dev => (∀ d ∈ s.mgr.devices.array, d ≠ 0 → name d ≠ name dev) →
      s.mgr.nextDevnum = s.accepted
  | .unregister number => number ≤ s.mgr.devices.capacity
  | .byName _ => True
  | .byNumber number => number < s.mgr.devices.capacity

/-- One call shows its registry, or memory has run out. -/
theorem perform_spec {s : History} {call : Call} (h : Shows name s.mgr r)
    (hnext : r.next = s.accepted) (hcall : call.Allowed) (hnumbered : Numbered name s call) (memory : Nat → Nat) :
    perform name memory s.mgr call = .error .memory ∨
      ∃ result t r', perform name memory s.mgr call = .ok (result, t) ∧
        Registry.Step name r (call, result) r' ∧ Shows name t r' ∧
        r'.next = r.next + (Event.accepts ⟨call, memory, result⟩).toNat := by
  cases call with
  | register dev =>
    have hcount := h.count (Word.wrap (s.mgr.nextDevnum + 1))
    obtain ⟨hnone, hfree⟩ | ⟨n, hn, hname, hfound⟩ := hcount.getDeviceByName (name dev)
    · have hlt : s.mgr.nextDevnum = r.next := by
        rw [hnext]
        refine hnumbered fun d hd hd0 hname => ?_
        obtain ⟨i, hi, rfl⟩ := List.mem_iff_getElem.mp hd
        have hslot := h.slot_getElem? hi
        rw [List.getElem?_eq_getElem hi, Option.some_inj] at hslot
        rw [hslot] at hd0 hname
        exact hfree i hd0 hname
      have hle := h.next_le
      have hmax := h.exact.room
      rw [h.exact.capacity, maxElements] at hmax
      have hset := hcount.assign memory hle (.inr rfl) fun _ => hfree
      rw [perform, registerDevice, bind_of_ok hnone, if_neg (by simp), hlt]
      rw [hlt] at hset
      obtain hmem | ⟨devices, hok, hshows⟩ := hset
      · exact .inl (by rw [hmem]; rfl)
      · refine .inr ⟨r.next, _, _, by rw [bind_of_ok hok], .register hcall hfree, hshows, ?_⟩
        have hne : r.next ≠ refused := by
          rw [refused]
          omega
        simp [Event.accepts, hne]
    · refine .inr ⟨refused, _, r, ?_, .refuse hn hname, hcount, by simp [Event.accepts]⟩
      rw [perform, registerDevice, bind_of_ok hfound, if_pos hn]
  | unregister number =>
    have hle : number ≤ s.mgr.devices.array.length := by
      have hn : (number : Int) ≤ s.mgr.devices.capacity := hnumbered
      rw [h.exact.capacity] at hn
      omega
    obtain hmem | ⟨devices, hok, hshows⟩ :=
      h.assign memory hle (.inl h.next_le) fun h0 => absurd rfl h0
    · exact .inl (by rw [perform, unregisterDevice, hmem]; rfl)
    · refine .inr ⟨0, _, _, ?_, .unregister r number, hshows, by simp [Event.accepts]⟩
      rw [perform, unregisterDevice, hok]
      rfl
  | byName key =>
    obtain ⟨hnone, hfree⟩ | ⟨n, hn, hname, hfound⟩ := h.getDeviceByName key
    · exact .inr ⟨0, s.mgr, r, by rw [perform, bind_of_ok hnone], .missing hfree, h,
        by simp [Event.accepts]⟩
    · exact .inr ⟨_, s.mgr, r, by rw [perform, bind_of_ok hfound], .found hn hname, h,
        by simp [Event.accepts]⟩
  | byNumber number =>
    have hlt : number < s.mgr.devices.array.length := by
      have hn : (number : Int) < s.mgr.devices.capacity := hnumbered
      rw [h.exact.capacity] at hn
      omega
    refine .inr ⟨_, s.mgr, r, ?_, .byNumber r number, h, by simp [Event.accepts]⟩
    rw [perform, getDeviceByNumber, h.toInt_eq (Nat.le_of_lt hlt),
      bind_of_ok (h.exact.get memory (h.slot_getElem? hlt))]

/-- A run with its results is a run of the registry, in which refusals change nothing; no two
registered devices have the same name, and the next call stays inside the storage. -/
theorem run_registered {es : List Event} {s : History}
    (hrun : Run (Guarded (fun s e => Numbered name s e.call) (Step name)) .start es s) :
    (∃ r, Run (Registry.Step name) .empty (es.map fun e => (e.call, e.result)) r ∧
        (∀ i, s.mgr.devices.array.getD i 0 = r.device i) ∧ r.Distinct name) ∧
      ∀ (call : Call) (memory : Nat → Nat), call.Allowed → Numbered name s call →
        perform name memory s.mgr call ≠ .error .outside := by
  have hsim : ∃ r, Run (Registry.Step name) .empty (es.map fun e => (e.call, e.result)) r ∧
      Shows name s.mgr r ∧ r.next = s.accepted := by
    induction hrun with
    | nil => exact ⟨.empty, .nil, initial_shows name, rfl⟩
    | snoc _ hstep ih =>
      obtain ⟨r, hr, hshows, hnext⟩ := ih
      obtain ⟨hnumbered, hcall, hperform, haccepted⟩ := hstep
      obtain hmem | ⟨result, t, r', hok, hstep', hshows', hnext'⟩ :=
        perform_spec hshows hnext hcall hnumbered _
      · rw [hmem] at hperform
        cases hperform
      · obtain ⟨rfl, rfl⟩ := Prod.mk.inj (Except.ok.inj (hok.symm.trans hperform))
        refine ⟨r', ?_, hshows', ?_⟩
        · rw [List.map_append]
          exact hr.snoc hstep'
        · rw [hnext', hnext, haccepted]
  obtain ⟨r, hr, hshows, hnext⟩ := hsim
  refine ⟨⟨r, hr, hshows.slot, hshows.distinct⟩, fun call memory hcall hnumbered => ?_⟩
  obtain hmem | ⟨result, t, r', hok, -⟩ := perform_spec hshows hnext hcall hnumbered memory
  · rw [hmem]
    exact fun h => by cases h
  · rw [hok]
    exact fun h => by cases h

/-! ## A device that is refused -/

/-- Devices with a name of one letter; new storage is not empty. -/
def letter (dev : Nat) : Kstring := [Char.ofNat dev]

def garbage : Nat → Nat := fun _ => 0x81400000

/-- The manager after these calls. -/
def performAll (calls : List Call) : Except Fault DeviceMgr :=
  calls.foldlM (fun m call => (perform letter garbage m call).map Prod.snd) .initial

/-- A device is registered at number 0, and refused the second time. -/
def refusal : List Event := [⟨.register 1, garbage, 0⟩, ⟨.register 1, garbage, refused⟩]

def afterRefusal : History :=
  ⟨(performAll [.register 1, .register 1]).toOption.getD .initial, 1⟩

theorem refusal_run :
    Run (Guarded (fun s e => Numbered letter s e.call) (Step letter)) .start refusal
      afterRefusal := by
  have hfirst : Step letter .start ⟨.register 1, garbage, 0⟩
      ⟨(performAll [.register 1]).toOption.getD .initial, 1⟩ :=
    ⟨Nat.one_ne_zero, by decide +kernel, rfl⟩
  refine .snoc (.snoc .nil ⟨fun _ => rfl, hfirst⟩) ⟨fun hnew => ?_, Nat.one_ne_zero, ?_, rfl⟩
  · have hmem : 1 ∈ ((performAll [.register 1]).toOption.getD .initial).devices.array := by
      decide +kernel
    exact absurd rfl (hnew 1 hmem (by decide))
  · decide +kernel

theorem refusal_registered : ∃ r,
    Run (Registry.Step letter) .empty [(.register 1, 0), (.register 1, refused)] r ∧
      (∀ i, afterRefusal.mgr.devices.array.getD i 0 = r.device i) ∧ r.Distinct letter :=
  (run_registered refusal_run).1

/-- The refusal has used up a number, so that the next device gets the number 2. In a full table
the next device is stored behind the storage. A lookup at the capacity finds a device where there
is none. -/
theorem refusal_counted :
    (perform letter garbage afterRefusal.mgr (.register 2)).map Prod.fst = .ok 2 ∧
      performAll ((List.range 32).map (fun i => .register (i + 1)) ++
        [.register 32, .register 33]) = .error .outside ∧
      (perform letter garbage .initial (.byNumber 32)).map Prod.fst = .ok (garbage 32) := by
  refine ⟨?_, ?_, ?_⟩ <;> decide +kernel

end WagtailDeviceMgr
