import Wagtail.ProcessRuns

/-!
# Copies of processes

A copy has the pages and the bytes of its parent, in memory of its own. What one of
them stores later is not seen by the other.
-/
namespace WagtailProcess

open WagtailMmu
open Runs (bind_of_ok)

variable {translate new : Nat → Nat} {w u : World}

/-! ## Stores -/

/-- Stores to addresses through the active table. -/
def World.stores (w : World) (bytes : List (Nat × Nat)) : Except Fault World :=
  bytes.foldlM (fun w x => w.store x.1 x.2) w

/-- A store changes a byte of a page that the active table maps, or aborts. -/
theorem World.store_eq {virt byte : Nat} (h : w.store virt byte = .ok u) :
    (∃ page, w.walk w.mmu.currentApplicationTable virt = some page ∧
      u = { w with bytes := Function.update w.bytes (page + virt % 4096) byte }) ∨
    w.walk w.mmu.currentApplicationTable virt = none ∧
      u = { w with dataAborts := w.dataAborts ++ [virt] } := by
  cases hwalk : w.walk w.mmu.currentApplicationTable virt with
  | none =>
    rw [World.store_unmapped hwalk, abortStore] at h
    split_ifs at h
    exact .inr ⟨rfl, (Except.ok.inj h).symm⟩
  | some page =>
    rw [World.store_of (World.physical_of hwalk)] at h
    exact .inl ⟨page, rfl, (Except.ok.inj h).symm⟩

/-- No page is mapped by both tables. -/
def World.Disjoint (w : World) (p q : Nat) : Prop :=
  ∀ v v' page, w.walk p v = some page → w.walk q v' ≠ some page

theorem World.Disjoint.symm {p q : Nat} (h : w.Disjoint p q) : w.Disjoint q p :=
  fun v v' page hq hp => h v' v page hp hq

/-- Stores keep the tables, and what is read through a table with other pages. -/
theorem World.stores_frame {q : Nat} {bytes : List (Nat × Nat)}
    (hdisjoint : w.Disjoint w.mmu.currentApplicationTable q) (h : w.stores bytes = .ok u) :
    ∀ v, u.read q v = w.read q v := by
  induction bytes generalizing w with
  | nil =>
    obtain rfl : w = u := Except.ok.inj h
    exact fun v => rfl
  | cons x bytes ih =>
    cases hstore : w.store x.1 x.2 with
    | error e =>
      rw [stores, List.foldlM_cons, hstore] at h
      cases h
    | ok t =>
      have hrest : t.stores bytes = .ok u := by
        rw [stores, List.foldlM_cons, bind_of_ok hstore] at h
        exact h
      intro v
      obtain ⟨page, hpage, rfl⟩ | ⟨-, rfl⟩ := World.store_eq hstore
      on_goal 2 => exact ih (by exact hdisjoint) hrest v
      apply (ih (by exact hdisjoint) hrest v).trans
      change (w.walk q v).map _ = (w.walk q v).map _
      cases hother : w.walk q v with
      | none => rfl
      | some page' =>
        have hlow := Nat.mod_lt v (show 0 < 4096 by decide)
        have hlow' := Nat.mod_lt x.1 (show 0 < 4096 by decide)
        have hne : page' + v % 4096 ≠ page + x.1 % 4096 := by
          intro hsame
          have hpages := page_disjoint (walk_aligned hother).1 (walk_aligned hpage).1
            (x := page' + v % 4096) (by omega) (by omega)
          exact hdisjoint x.1 v page hpage (hpages ▸ hother)
        rw [Option.map_some, Option.map_some]
        exact congrArg some (Function.update_of_ne hne ..)

/-- Whatever the bytes are, what is stored through one table is not seen through the other. -/
def World.Invisible (translate : Nat → Nat) (w : World) (p q : Nat) : Prop :=
  ∀ bytes mmu pid stores u,
    (World.setApplicationTable translate { w with bytes := bytes, mmu := mmu } p pid).stores stores =
      .ok u →
    ∀ v, u.read q v = World.read { w with bytes := bytes, mmu := mmu } q v

theorem World.Disjoint.invisible {p q : Nat} (h : w.Disjoint p q) : w.Invisible translate p q := by
  intro bytes mmu pid stores u hu v
  apply World.stores_frame (q := q) ?_ hu v
  rw [World.setApplicationTable_current]
  exact h

/-! ## The copying constructor -/

/-- The table of a process maps the pages of its sections. -/
def Process.Mapped (proc : Process) (w : World) : Prop :=
  ∀ v, w.walk proc.translationTable v ≠ none ↔ Requested proc.requests v

/-- With a page for each page of its parent the copying constructor makes a copy of it, in which
stores by either are invisible to the other. It only fails if the heap has no memory for a page
table. -/
theorem processFromParent_copies (heap : HeapPages translate new) (hw : Valid translate new w)
    {parent : Process} (hparent : parent.Mapped w) {table : Nat}
    (hnone : ∀ v, w.walk table v = none) (hne : parent.translationTable ≠ table)
    (henough : parent.requests.length ≤ w.free.length) (pid : Nat) :
    (∃ u child, processFromParent translate new w table pid parent = .ok (u, child) ∧
      child.pid = pid ∧ child.translationTable = table ∧ CopyOf w parent u child ∧
      u.Invisible translate parent.translationTable child.translationTable ∧
      u.Invisible translate child.translationTable parent.translationTable) ∨
    parent.requests.foldlM (mapNew translate new table) (newProcess w table pid).1 =
      .error .allocation ∧
    processFromParent translate new w table pid parent = .error .allocation := by
  obtain ⟨u, child, hu, hbuilt, hcopy⟩ | hfailed :=
    processFromParent_spec heap hw hnone pid hparent hne
  · have hcopy := hcopy henough
    have hdisjoint : u.Disjoint child.translationTable parent.translationTable :=
      hcopy.apart _ hcopy.distinct
    exact .inl ⟨u, child, hu, hbuilt.fields.1, hbuilt.fields.2.1, hcopy,
      hdisjoint.symm.invisible, hdisjoint.invisible⟩
  · exact .inr hfailed

def smallParent : Process where
  pid := 1
  translationTable := 0x80010000
  programBreak := 0x2000
  registers := newRegisters
  codePages := 1
  dataPages := 0
  stackPages := 4
  usable := true

/-- A parent with one page of code, and some bytes in memory. -/
theorem small_copied : ∃ w u child, firstMapped 16 = .ok w ∧
    processFromParent id supply { w with bytes := fun x => x % 251 } 0x80014000 2 smallParent =
      .ok (u, child) ∧
    CopyOf { w with bytes := fun x => x % 251 } smallParent u child := by
  obtain ⟨w, hw⟩ := ok_of_isSome (x := firstMapped 16) (by decide +kernel)
  obtain ⟨hnone, hgrown⟩ := firstMapped_grown (by decide) hw
  have hlength : (newProcess (bare 16).world 0x80010000 1).1.free.length = 16 := by
    decide +kernel
  have henough : smallParent.requests.length ≤ w.free.length := by
    rw [hgrown.free, List.length_drop, hlength]
    decide
  have hunmapped : ∀ v, w.walk 0x80014000 v = none := by
    intro v
    rw [hgrown.others _ _ fun hcond => absurd hcond.1 (by decide)]
    exact hnone _ v
  have hmapped : smallParent.Mapped { w with bytes := fun x => x % 251 } :=
    hgrown.domain (hnone _)
  obtain ⟨u, child, hu, -, -, hcopy, -⟩ | ⟨hcause, -⟩ := processFromParent_copies
    (w := { w with bytes := fun x => x % 251 }) heapPages_supply (hgrown.valid.congr rfl rfl)
    hmapped hunmapped (by decide) henough 2
  · exact ⟨w, u, child, hw, hu, hcopy⟩
  · exact absurd hcause (secondMapped_ok (by decide +kernel) hw rfl rfl)

end WagtailProcess
