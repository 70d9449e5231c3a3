import Wagtail.SchedulerStatus

/-!
# The status of a wait in memory

What the stores of the scheduler do to the memory of user processes, and what a
process finds at the location that it has named in a call of `wait`.
-/
namespace WagtailProcess

open Word (wrap wrap_of_lt)
open WagtailMmu
open Runs

variable {w u : World} {table virt value : Nat}

/-! ## Words in memory -/

/-- The bytes of a word, the lowest first. -/
def byteOf (value i : Nat) : Nat := value / 256 ^ i % 256

/-- `str` of a word: all of it is written, or the store aborts. -/
def World.storeWord (w : World) (virt value : Nat) : Except Fault World :=
  if (List.range 4).all fun i => (w.physical (wrap (virt + i))).isOk then
    w.storeBuffer virt 4 (byteOf value)
  else w.abortStore virt

/-- The word at an address, as it is read through a table. -/
def World.readWord (w : World) (table virt : Nat) : Option Nat := do
  let b₀ ← w.read table virt
  let b₁ ← w.read table (virt + 1)
  let b₂ ← w.read table (virt + 2)
  let b₃ ← w.read table (virt + 3)
  some (b₀ + 256 * b₁ + 256 ^ 2 * b₂ + 256 ^ 3 * b₃)

theorem World.read_bytes (w : World) (bytes : Nat → Nat) (table virt : Nat) :
    World.read { w with bytes := bytes } table virt =
      (w.walk table virt).map fun page => bytes (page + virt % 4096) := rfl

/-- Up to a page of bytes that are mapped is stored, and read back: their offsets in the pages
differ. -/
theorem World.storeBuffer_near {count : Nat} (buffer : Nat → Nat)
    (hcurrent : w.mmu.currentApplicationTable = table) (hcount : count ≤ 4096)
    (hlast : virt + count ≤ 2 ^ 32) (hwalk : ∀ i < count, w.walk table (virt + i) ≠ none) :
    ∃ bytes, w.storeBuffer virt count buffer = .ok { w with bytes := bytes } ∧
      ∀ i < count, World.read { w with bytes := bytes } table (virt + i) = some (buffer i) := by
  induction count with
  | zero => exact ⟨w.bytes, rfl, fun i hi => absurd hi (Nat.not_lt_zero i)⟩
  | succ count ih =>
    obtain ⟨bytes, hok, hread⟩ := ih (by omega) (by omega) fun i hi => hwalk i (by omega)
    obtain ⟨page, hpage⟩ := Option.ne_none_iff_exists'.mp (hwalk count (by omega))
    have hphysical : World.physical { w with bytes := bytes } (virt + count) =
        .ok (page + (virt + count) % 4096) := by
      apply World.physical_of
      rw [← hpage, ← hcurrent]
      rfl
    refine ⟨Function.update bytes (page + (virt + count) % 4096) (buffer count), ?_, ?_⟩
    · rw [storeBuffer, List.range_succ, foldlM_snoc, ← storeBuffer, bind_of_ok hok,
        wrap_of_lt (by omega), World.store_of hphysical]
    · intro i hi
      rw [World.read_bytes]
      by_cases hnew : i = count
      · subst hnew
        rw [hpage, Option.map_some, Function.update_self]
      · have hbefore := hread i (by omega)
        obtain ⟨page', hpage'⟩ := Option.ne_none_iff_exists'.mp (hwalk i hi)
        rw [World.read_bytes, hpage', Option.map_some] at hbefore
        rw [hpage', Option.map_some]
        have haligned := (walk_aligned hpage).1
        have haligned' := (walk_aligned hpage').1
        rw [Function.update_of_ne (by omega)]
        exact hbefore

/-- A word that the user can write is stored and read back. -/
theorem World.storeWord_read (hcurrent : w.mmu.currentApplicationTable = table)
    (hwritable : w.WordWritable table virt) (value : Nat) :
    ∃ bytes, w.storeWord virt value = .ok { w with bytes := bytes } ∧
      World.readWord { w with bytes := bytes } table virt = some (wrap value) := by
  have hwalk : ∀ i < 4, w.walk table (virt + i) ≠ none := by
    intro i hi
    obtain ⟨entry, hentry, -⟩ := hwritable.2 i hi
    simp [World.walk, WagtailMmu.walk, hentry]
  have hlast : (virt + 3) >>> 20 < 2048 := by
    by_contra hout
    refine hwalk 3 (by decide) ?_
    rw [World.walk, WagtailMmu.walk, descriptor, dif_neg hout]
    rfl
  rw [Nat.shiftRight_eq_div_pow] at hlast
  have hphysical : (List.range 4).all fun i => (w.physical (wrap (virt + i))).isOk := by
    refine List.all_eq_true.mpr fun i hi => ?_
    rw [List.mem_range] at hi
    obtain ⟨page, hpage⟩ := Option.ne_none_iff_exists'.mp (hwalk i hi)
    rw [wrap_of_lt (by omega), World.physical_of (hcurrent ▸ hpage)]
    rfl
  obtain ⟨bytes, hok, hread⟩ :=
    World.storeBuffer_near (byteOf value) hcurrent (by decide) (by omega) hwalk
  refine ⟨bytes, (if_pos hphysical).trans hok, ?_⟩
  rw [readWord, show World.read _ table virt = _ from hread 0 (by decide), hread 1 (by decide),
    hread 2 (by decide), hread 3 (by decide)]
  simp only [Option.bind_eq_bind, Option.bind_some, Option.some.injEq, byteOf, wrap]
  omega

end WagtailProcess

namespace WagtailScheduler

open WagtailKqueue
open WagtailMmu
open WagtailProcess (World)
open Word (wrap)
open Runs

variable {virtualToPhysical : Nat → Nat} {w : Nat}

/-! ## What the scheduler stores -/

/-- What a store of the kernel does to user memory. Without a table there is none. -/
def Store.perform (s : Store) (user : World) : World :=
  let active : World := { user with mmu := { user.mmu with currentApplicationTable := s.table } }
  let stored :=
    if s.table = 0 then active.abortStore s.address
    else active.storeWord s.address s.value
  match stored with
  | .ok after => { user with bytes := after.bytes, dataAborts := after.dataAborts }
  | .error _ => user

/-- Memory behind a step of the kernel. -/
def memoryAfter (user : World) (k t : Kernel) : World :=
  (t.stores.drop k.stores.length).foldl (fun user s => s.perform user) user

theorem memoryAfter_append {user : World} {k t : Kernel} {written : List Store}
    (h : t.stores = k.stores ++ written) :
    memoryAfter user k t = written.foldl (fun user s => s.perform user) user := by
  rw [memoryAfter, h, List.drop_left]

theorem perform_read {user : World} {s : Store} (htable : s.table ≠ 0)
    (hwritable : user.WordWritable s.table s.address) :
    (s.perform user).readWord s.table s.address = some (wrap s.value) := by
  obtain ⟨bytes, hok, hread⟩ := World.storeWord_read
    (w := { user with mmu := { user.mmu with currentApplicationTable := s.table } }) rfl hwritable
    s.value
  simp only [Store.perform, if_neg htable, hok]
  exact hread

/-! ## What a process finds -/

/-- A process that waits for another one is blocked until that one has exited, and then gets its
PID, and its exit code in memory if it has asked for it at a location that it can write; one that
names no process of the queue is not blocked and gets `-1`. -/
theorem run_wait {mmu : Mmu} {events more : List Event} {before after t : History}
    {registers : Registers} {pid statusLoc : Nat} {memory : Waitblock}
    (hrun : Run (EventStep virtualToPhysical) (History.start (initial mmu)) events before)
    (hwait : EventStep virtualToPhysical before (.wait registers pid statusLoc w memory) after)
    (hrest : Run (Sleeping virtualToPhysical before.kernel.currentProcess)
      { after with exits := [] } more t) :
    (∀ q, Names before.kernel pid q → pid ≠ 0 → pid ≠ 0xffffffff →
      before.kernel.currentProcess ∈ t.kernel.processQueue.elements ∧
      isBlocking t.kernel before.kernel.currentProcess = some (firstExit q t.exits).isNone ∧
      ∀ e u, EventStep virtualToPhysical t e u →
        u.kernel.currentProcess = before.kernel.currentProcess →
        ∃ x chosen, firstExit q t.exits = some x ∧
          u.kernel.process before.kernel.currentProcess = some chosen ∧
          chosen.registers.r 0 = pid ∧
          ∀ user : World,
            if statusLoc = 0 then memoryAfter user t.kernel u.kernel = user
            else chosen.addrspace.table ≠ 0 →
              user.WordWritable chosen.addrspace.table statusLoc →
              (memoryAfter user t.kernel u.kernel).readWord chosen.addrspace.table statusLoc =
                some (wrap x.code)) ∧
    (UnusedPid before.kernel pid →
      before.kernel.currentProcess ∈ t.kernel.processQueue.elements ∧
      isBlocking t.kernel before.kernel.currentProcess = some false ∧
      ∀ e u, EventStep virtualToPhysical t e u →
        u.kernel.currentProcess = before.kernel.currentProcess →
        ∃ chosen, u.kernel.process before.kernel.currentProcess = some chosen ∧
          chosen.registers.r 0 = 0xffffffff) := by
  obtain ⟨hnamed, hunused⟩ := run_answered hrun hwait hrest
  refine ⟨fun q hnames hpid0 hpidm => ?_, hunused⟩
  obtain ⟨hqueued, hblocking, hanswer⟩ := hnamed q hnames hpid0 hpidm
  refine ⟨hqueued, hblocking, fun e u hstep hcur => ?_⟩
  obtain ⟨x, chosen, hfirst, hchosen, hr, hstores⟩ := hanswer e u hstep hcur
  refine ⟨x, chosen, hfirst, hchosen, hr, fun user => ?_⟩
  rw [memoryAfter_append hstores]
  split_ifs
  · rfl
  · exact fun htable hwritable => perform_read htable hwritable

/-- Process 1 is chosen to run again. -/
def pairChosen : History := (eventStep pairExits (.interrupt interrupted)).get (by decide +kernel)

/-- It finds the PID of process 2, and at `0x5000` the exit code 7. -/
theorem pair_answered : isBlocking pairExits.kernel 0x1000 = some false ∧
    ∃ chosen, pairChosen.kernel.process 0x1000 = some chosen ∧ chosen.registers.r 0 = 2 ∧
      (memoryAfter userWorld pairExits.kernel pairChosen.kernel).readWord 0x8000 0x5000 =
        some 7 := by
  have hcur : pairRuns.kernel.currentProcess = 0x1000 := by decide +kernel
  have hcur' : pairChosen.kernel.currentProcess = 0x1000 := by decide +kernel
  have hqueue : pairRuns.kernel.processQueue.elements = [0x2000] := by decide +kernel
  have hpid : (pairRuns.kernel.process 0x2000).map Process.pid = some 2 := by decide +kernel
  obtain ⟨proc, hproc, hpid⟩ := Option.map_eq_some_iff.mp hpid
  have hexits : (firstExit 0x2000 pairExits.exits).map Exit.code = some 7 := by decide +kernel
  have htable : (pairChosen.kernel.process 0x1000).map (fun proc => proc.addrspace.table) =
      some 0x8000 := by decide +kernel
  obtain ⟨-, hblocking, hanswer⟩ := (run_wait pairRuns_run
    (eventStep_step (Option.some_get _).symm) (hcur ▸ pairExits_run)).1 0x2000
    ⟨by simp [hqueue], ⟨proc, hproc, hpid⟩, by simp [hqueue]⟩ (by decide) (by decide)
  obtain ⟨x, chosen, hx, hchosen, hr, hmemory⟩ :=
    hanswer _ pairChosen (eventStep_step (Option.some_get _).symm) (hcur'.trans hcur.symm)
  rw [hcur] at hblocking hchosen
  rw [hx, Option.map_some, Option.some.injEq] at hexits
  rw [hchosen, Option.map_some, Option.some.injEq] at htable
  have hword := hmemory userWorld
  rw [if_neg (by decide), htable, hexits] at hword
  refine ⟨?_, chosen, hchosen, hr, hword (by decide) userWorld_writable⟩
  rw [hblocking]
  decide +kernel

end WagtailScheduler
