import Mathlib.Algebra.Group.Nat.Defs
import Mathlib.Logic.Function.Basic
import Wagtail.Partition

/-!
# The virtual filesystem

`vfs::mount` with its list of mountpoints, the two methods that pass a path
on to a mounted filesystem, and the one that asks them all, as `vfs.cpp`
computes them. A filesystem is whatever `filesystem::initialize` returns; its
own methods are a parameter. A null pointer is `0`.
-/
namespace WagtailVfs

open WagtailKstring
open WagtailFilesystem (Io wrap64)

variable {φ β : Type}

/-- `vfs::mountpoint`. -/
structure Mountpoint (φ : Type) where
  path : Kstring
  fs : φ
  next : Nat
  prev : Nat

/-- The interface object, with the mountpoints in memory. -/
structure Vfs (φ : Type) where
  mountList : Nat
  mountpoint : Nat → Mountpoint φ
  usable : Bool

def Vfs.setNext (v : Vfs φ) (m next : Nat) : Vfs φ :=
  { v with mountpoint := Function.update v.mountpoint m { v.mountpoint m with next } }

def Vfs.setPrev (v : Vfs φ) (m prev : Nat) : Vfs φ :=
  { v with mountpoint := Function.update v.mountpoint m { v.mountpoint m with prev } }

/-- `new mountpoint(path, fs)`, at the address that the heap hands out. -/
def Vfs.newMountpoint (v : Vfs φ) (m : Nat) (path : Kstring) (fs : φ) : Vfs φ :=
  { v with mountpoint := Function.update v.mountpoint m { path, fs, next := 0, prev := 0 } }

/-- A list of mountpoints visits an address once: longer walks run in a circle. -/
def maxMountpoints : Nat := 2 ^ 32

/-- The loop of `vfs::add_mountpoint`: the mountpoint to insert in front of. -/
def insertionPoint (v : Vfs φ) (length : Nat) : Nat → Nat → Option Nat
  | 0, _ => none
  | fuel + 1, current =>
    if (v.mountpoint current).next = 0 then some current
    else if (v.mountpoint current).path.length < length then some current
    else insertionPoint v length fuel (v.mountpoint current).next

/-- `vfs::add_mountpoint`. -/
def addMountpoint (v : Vfs φ) (m : Nat) : Option (Vfs φ) :=
  if v.mountList = 0 then some { v with mountList := m }
  else do
    let current ← insertionPoint v (v.mountpoint m).path.length maxMountpoints v.mountList
    let v := if current = v.mountList then { v with mountList := m } else v
    let v := v.setNext m current
    let v := v.setPrev m (v.mountpoint current).prev
    let v := if (v.mountpoint current).prev ≠ 0 then v.setNext (v.mountpoint current).prev m else v
    some (v.setPrev current m)

/-- Why a mount is refused, with the message on the console. -/
inductive MountError where
  | notUsable
  | beforeRoot
  deriving DecidableEq, Repr

def MountError.message (path : String) : MountError → String
  | .notUsable =>
    "VFS: cannot mount filesystem on " ++ path ++ ": the filesystem could not be used"
  | .beforeRoot => "VFS: cannot mount filesystem on " ++ path ++ " before / has been mounted"

/-- `vfs::mount`: `fs` is what `filesystem::initialize` returns for the partition, `m` the
address of the new mountpoint. -/
def mount (v : Vfs φ) (path : Kstring) (fs : Option φ) (m : Nat) :
    Option (Except MountError φ × Vfs φ) :=
  match fs with
  | none => some (.error .notUsable, v)
  | some fs =>
    if v.mountList = 0 ∧ path ≠ ['/'] then some (.error .beforeRoot, v)
    else do
      let v := if path = ['/'] then { v with usable := true } else v
      let v ← addMountpoint (v.newMountpoint m path fs) m
      some (.ok fs, v)

/-- The search that `open_file` and `read_directory` share, calling `method` on the
filesystem that is found. The outer `none` stands for a call that does not return. -/
def delegate (v : Vfs φ) (method : φ → Kstring → Option β) (path : Kstring) :
    Nat → Nat → Option (Option β)
  | 0, _ => none
  | fuel + 1, current =>
    if current = 0 then some none
    else do
      let mount := v.mountpoint current
      let start ← substring path 0 mount.path.length
      if start = mount.path then
        if start = ['/'] then some (method mount.fs path)
        else do
          let rest ← substring path mount.path.length path.length
          some (method mount.fs rest)
      else delegate v method path fuel mount.next

/-- `vfs::open_file`. -/
def openFile (v : Vfs φ) (openFile : φ → Kstring → Option β) (path : Kstring) :
    Option (Option β) :=
  delegate v openFile path maxMountpoints v.mountList

/-- `vfs::read_directory`. -/
def readDirectory (v : Vfs φ) (readDirectory : φ → Kstring → Option β) (path : Kstring) :
    Option (Option β) :=
  delegate v readDirectory path maxMountpoints v.mountList

/-- The loop of `vfs::get_free_space`, calling `getFreeSpace` on every filesystem. -/
def addFreeSpace (v : Vfs φ) (getFreeSpace : φ → Io Nat) : Nat → Nat → Nat → Io Nat
  | 0, _, _ => .stuck
  | fuel + 1, retval, current =>
    if current = 0 then pure retval
    else do
      let space ← getFreeSpace (v.mountpoint current).fs
      addFreeSpace v getFreeSpace fuel (wrap64 (retval + space)) (v.mountpoint current).next

/-- `vfs::get_free_space`. -/
def getFreeSpace (v : Vfs φ) (getFreeSpace : φ → Io Nat) : Io Nat :=
  addFreeSpace v getFreeSpace maxMountpoints 0 v.mountList

end WagtailVfs
