import Mathlib.Logic.Function.Basic
import Wagtail.ExpandableArray
import Wagtail.Kstring
import Wagtail.Library.Word

/-!
# The device manager

`device_mgr` registers devices in an expandable array, at numbers that it counts
up. A device is known by its address, and `name` is what stands in its name at an
address; a null pointer is `0`.
-/
namespace WagtailDeviceMgr

open Word (wrap)
open WagtailExpandableArray
open WagtailKstring
open Runs (Run Guarded)

structure DeviceMgr where
  nextDevnum : Nat
  devices : ExpandableArray Nat
  deriving DecidableEq, Repr

def preallocateDevices : Nat := 32

/-- A device number as the index of an array. -/
def toInt (number : Nat) : Int := if number < 2 ^ 31 then number else (number : Int) - 2 ^ 32

/-- What `register_device` returns when it refuses a device. -/
def refused : Nat := 0xffffffff

variable (name : Nat → Kstring) (memory : Nat → Nat)

/-- The loop of `device_mgr::get_device_by_name` over the rest of the indices from `i` on. They
are below the capacity, so that nothing is expanded. -/
def findDevice (devices : ExpandableArray Nat) (key : Kstring) : Nat → Nat → Except Fault Nat
  | 0, _ => .ok 0
  | n + 1, i => do
    let dev ← devices.element i
    if dev ≠ 0 ∧ name dev = key then Except.ok dev else findDevice devices key n (i + 1)

/-- `device_mgr::get_device_by_name`. -/
def getDeviceByName (m : DeviceMgr) (key : Kstring) : Except Fault Nat :=
  findDevice name m.devices key m.devices.capacity.toNat 0

/-- `device_mgr::register_device`. -/
def registerDevice (m : DeviceMgr) (dev : Nat) : Except Fault (Nat × DeviceMgr) := do
  let retval := m.nextDevnum
  let m := { m with nextDevnum := wrap (m.nextDevnum + 1) }
  let found ← getDeviceByName name m (name dev)
  if found ≠ 0 then Except.ok (refused, m)
  else do
    let devices ← m.devices.assign memory (toInt retval) dev
    Except.ok (retval, { m with devices })

/-- `device_mgr::unregister_device`. -/
def unregisterDevice (m : DeviceMgr) (number : Nat) : Except Fault DeviceMgr := do
  let devices ← m.devices.assign memory (toInt number) 0
  Except.ok { m with devices }

/-- `device_mgr::get_device_by_number`. -/
def getDeviceByNumber (m : DeviceMgr) (number : Nat) : Except Fault (Nat × DeviceMgr) := do
  let (dev, devices) ← m.devices.get memory (toInt number)
  Except.ok (dev, { m with devices })

/-- A manager that holds the preallocated slots, all of them empty. -/
def DeviceMgr.initial : DeviceMgr where
  nextDevnum := 0
  devices :=
    { capacity := preallocateDevices
      expandAmount := 1
      array := List.replicate preallocateDevices 0 }

/-! ## Calls -/

inductive Call where
  | register (dev : Nat)
  | unregister (number : Nat)
  | byName (key : Kstring)
  | byNumber (number : Nat)
  deriving DecidableEq, Repr

/-- A call with what it returns; `unregister_device` returns nothing, which is `0`. -/
def perform (m : DeviceMgr) : Call → Except Fault (Nat × DeviceMgr)
  | .register dev => registerDevice name memory m dev
  | .unregister number => do
    let m ← unregisterDevice memory m number
    Except.ok (0, m)
  | .byName key => do
    let dev ← getDeviceByName name m key
    Except.ok (dev, m)
  | .byNumber number => getDeviceByNumber memory m number

/-! ## What the manager is for -/

/-- The registered devices by their numbers, `0` for none, and the next number. -/
structure Registry where
  next : Nat
  device : Nat → Nat

def Registry.empty : Registry := ⟨0, fun _ => 0⟩

/-- No registered device has the name. -/
def Registry.Free (r : Registry) (key : Kstring) : Prop :=
  ∀ n, r.device n ≠ 0 → name (r.device n) ≠ key

/-- No two registered devices have the same name. -/
def Registry.Distinct (r : Registry) : Prop :=
  ∀ i j, r.device i ≠ 0 → r.device j ≠ 0 → name (r.device i) = name (r.device j) → i = j

/-- A call with its result. A registration under a name that is in use changes nothing. -/
inductive Registry.Step (name : Nat → Kstring) : Registry → Call × Nat → Registry → Prop where
  | register {r : Registry} {dev : Nat} (hdev : dev ≠ 0) (hfree : r.Free name (name dev)) :
      Step name r (.register dev, r.next) ⟨r.next + 1, Function.update r.device r.next dev⟩
  | refuse {r : Registry} {dev n : Nat} (hn : r.device n ≠ 0)
      (hname : name (r.device n) = name dev) : Step name r (.register dev, refused) r
  | unregister (r : Registry) (n : Nat) :
      Step name r (.unregister n, 0) ⟨r.next, Function.update r.device n 0⟩
  | found {r : Registry} {n : Nat} {key : Kstring} (hn : r.device n ≠ 0)
      (hname : name (r.device n) = key) : Step name r (.byName key, r.device n) r
  | missing {r : Registry} {key : Kstring} (hfree : r.Free name key) :
      Step name r (.byName key, 0) r
  | byNumber (r : Registry) (n : Nat) : Step name r (.byNumber n, r.device n) r

end WagtailDeviceMgr
