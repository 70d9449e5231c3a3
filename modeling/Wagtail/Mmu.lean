import Wagtail.Library.Word

/-!
# The active application table

The registers that `mmu::set_application_table` writes.
-/
namespace WagtailMmu

open Word (wrap)

/-- The current table as the class keeps it, and the MMU registers behind it: TTBR0,
CONTEXTIDR and the PD0 bit of TTBCR. -/
structure Mmu where
  currentApplicationTable : Nat
  ttbr0 : Nat
  contextidr : Nat
  pd0 : Bool
  asid : Nat
  deriving DecidableEq, Repr

/-- `mmu::set_application_table`. Without a table, walks of user addresses are disabled and
the other registers stay. -/
def setApplicationTable (virtualToPhysical : Nat → Nat) (m : Mmu) (table pid : Nat) : Mmu :=
  let m := { m with currentApplicationTable := table }
  if table ≠ 0 then
    { m with
      contextidr := wrap (pid <<< 8) ||| m.asid
      ttbr0 := virtualToPhysical table ||| 0b10011
      pd0 := false
      asid := (m.asid + 1) % 256 }
  else { m with pd0 := true }

@[simp] theorem setApplicationTable_current (virtualToPhysical : Nat → Nat) (m : Mmu)
    (table pid : Nat) :
    (setApplicationTable virtualToPhysical m table pid).currentApplicationTable = table := by
  unfold setApplicationTable
  by_cases h : table = 0 <;> simp [h]

/-- The table is the one that user addresses are translated with. -/
def Mmu.Active (virtualToPhysical : Nat → Nat) (m : Mmu) (table : Nat) : Prop :=
  m.currentApplicationTable = table ∧
    if table = 0 then m.pd0 = true
    else m.pd0 = false ∧ m.ttbr0 = virtualToPhysical table ||| 0b10011

theorem setApplicationTable_active (virtualToPhysical : Nat → Nat) (m : Mmu) (table pid : Nat) :
    (setApplicationTable virtualToPhysical m table pid).Active virtualToPhysical table := by
  unfold setApplicationTable Mmu.Active
  by_cases h : table = 0 <;> simp [h]

end WagtailMmu
