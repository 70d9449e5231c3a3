import Wagtail.SdTransfer

/-!
# Where the blocks land

The bytes that the stores of an operation leave in memory. Block `k` is found at
byte `2048 * k` of the destination; an operation is delivered as its callers
expect, at byte `512 * k` and nowhere else, exactly when it has one block.
-/
namespace WagtailTransfer

open Runs (Run)
open Word (wrap)
open Memory (byte after consecutive)
open WagtailSd

/-- The store as memory sees it. -/
def place (x : Store) : Memory.Store := ⟨x.address, x.value⟩

/-- Without a wrap around, the words of a block are stored one after the other. -/
theorem storeWords_consecutive {o destination k i : Nat} {fifo : List Nat}
    (h : destination + 4 * (i + k * blockSize) + 4 * fifo.length ≤ 2 ^ 32) :
    (storeWords o destination k i fifo).map place =
      consecutive (destination + 4 * (i + k * blockSize)) fifo := by
  induction fifo generalizing i with
  | nil => rfl
  | cons word fifo ih =>
    simp only [List.length_cons] at h
    have hindex : wrap (i + k * blockSize) = i + k * blockSize := Word.wrap_of_lt (by omega)
    have haddress : wrap (destination + 4 * (i + k * blockSize)) =
        destination + 4 * (i + k * blockSize) := Word.wrap_of_lt (by omega)
    rw [storeWords, List.map_cons, hindex, haddress, ih (by omega), consecutive]
    congr 2
    omega

theorem block_length (disk : Nat → Nat → Nat) (address : Nat) :
    (block disk address).length = 128 := by
  simp [block]

/-- Block `k` of an operation is found at byte `2048 * k` of the destination. -/
theorem landed (disk : Nat → Nat → Nat) (o destination address : Nat) {n k j : Nat} (m : Nat → Nat)
    (hfit : destination + 2048 * (n - 1) + 512 ≤ 2 ^ 32) (hk : k < n) (hj : j < 512) :
    after m ((storesOf disk o destination address n).map place) (destination + 2048 * k + j) =
      byte (disk (wrap (address + k)) (j / 4)) (j % 4) := by
  induction n with
  | zero => omega
  | succ n ih =>
    have hlast : (storeWords o destination n 0 (block disk (wrap (address + n)))).map place =
        consecutive (destination + 2048 * n) (block disk (wrap (address + n))) := by
      have hbase : destination + 4 * (0 + n * blockSize) = destination + 2048 * n := by
        simp only [blockSize]
        omega
      have hroom : destination + 4 * (0 + n * blockSize) +
          4 * (block disk (wrap (address + n))).length ≤ 2 ^ 32 := by
        rw [hbase, block_length]
        omega
      rw [storeWords_consecutive hroom, hbase]
    rw [storesOf, List.map_append, Memory.after_append, hlast]
    by_cases hkn : k = n
    · subst hkn
      have hword : j / 4 < (block disk (wrap (address + k))).length := by
        rw [block_length]
        omega
      rw [Memory.after_consecutive _ _ hword]
      simp [block]
    · refine (Memory.after_uncovered fun x hx hcovers => ?_).trans (ih (by omega) (by omega))
      obtain ⟨i, -, hi⟩ := Memory.mem_consecutive hx
      have := hcovers.1
      omega

theorem mem_storeWords {o destination k i : Nat} {fifo : List Nat} {x : Store}
    (h : x ∈ storeWords o destination k i fifo) :
    ∃ j < fifo.length, x.address = wrap (destination + 4 * wrap (i + j + k * blockSize)) := by
  induction fifo generalizing i with
  | nil => cases h
  | cons word fifo ih =>
    rcases List.mem_cons.mp h with rfl | h
    · exact ⟨0, by simp, rfl⟩
    · obtain ⟨j, hj, hx⟩ := ih h
      exact ⟨j + 1, by simpa using hj, by rw [hx, Nat.add_right_comm i 1 j, Nat.add_assoc i j 1]⟩

theorem storesOf_head (disk : Nat → Nat → Nat) (o destination address : Nat) {n k : Nat} (hk : k < n) :
    ∃ x ∈ storesOf disk o destination address n,
      x.address = wrap (destination + 4 * wrap (k * blockSize)) := by
  induction n with
  | zero => omega
  | succ n ih =>
    by_cases hkn : k = n
    · subst hkn
      refine ⟨⟨o, _, disk (wrap (address + k)) 0⟩, List.mem_append_right _ ?_, rfl⟩
      rw [block, List.range_succ_eq_map (n := 127), List.map_cons, storeWords, Nat.zero_add]
      exact List.mem_cons_self
    · obtain ⟨x, hx, haddress⟩ := ih (by omega)
      exact ⟨x, List.mem_append_left _ hx, haddress⟩

/-! ## Delivery -/

/-- What the callers of a block read expect: every block is where it belongs, and no store
was made for the operation outside of its buffer. -/
structure Delivered (disk : Nat → Nat → Nat) (m : Nat → Nat) (stores : List Store) (o : Nat)
    (op : BlockReadOperation) : Prop where
  blocks : ∀ k < op.blocks, ∀ j < 512,
    after m (stores.map place) (op.destination + 512 * k + j) =
      byte (disk (op.address + k) (j / 4)) (j % 4)
  inside : ∀ x ∈ stores, x.operation = o →
    op.destination ≤ x.address ∧ x.address + 4 ≤ op.destination + 512 * op.blocks

/-- When an operation is completed, its stores are those of all its blocks. -/
theorem completed_stores {disk : Nat → Nat → Nat} {es : List Event} {s t : System}
    {o irq status : Nat} {fifo : List Nat} {op : BlockReadOperation}
    (h : Run (Step disk) .initial es s) (hstep : Step disk s (.interrupt irq status fifo) t)
    (hdone : Completes s.sd o irq status) (hop : s.sd.op o = some op) (hblocks : 1 ≤ op.blocks) :
    (∃ earlier, t.sd.stores = earlier ++ storesOf disk o op.destination op.address op.blocks) ∧
    t.sd.stores.filter (·.operation = o) = storesOf disk o op.destination op.address op.blocks ∧
    op.address < 2 ^ 32 := by
  have hc := Coherent.run h
  simp only [Step, step, Option.ite_none_right_eq_some] at hstep
  obtain ⟨hallowed, hstep⟩ := hstep
  obtain ⟨⟨answered, delivering⟩, hanswer, hstep⟩ := Option.bind_eq_some_iff.mp hstep
  obtain ⟨sd, hsd, hstep⟩ := Option.bind_eq_some_iff.mp hstep
  obtain rfl := Option.some.inj hstep
  obtain ⟨hdelivering, hstores⟩ := (hc.interrupt hallowed hanswer hsd).2 o hdone
  obtain ⟨-, hpos, rfl, -, -, op', hop', hle⟩ := hdone
  obtain rfl := Option.some.inj (hop.symm.trans hop')
  obtain ⟨-, haddress, hread⟩ := hc.words _ op hop
  have hcount : op.blocksRead = op.blocks := by omega
  obtain ⟨earlier, hearlier⟩ := (hc.busy hpos op hop).contiguous
  rw [hstores, ← hcount]
  exact ⟨⟨earlier, hearlier⟩, hc.stores _ op hop, haddress⟩

/-- In every run of the driver against the card, an operation that is completed has been
delivered if and only if it has one block. -/
theorem run_delivered {disk : Nat → Nat → Nat} {es : List Event} {s t : System}
    {o irq status : Nat} {fifo : List Nat} {op : BlockReadOperation} (m : Nat → Nat)
    (h : Run (Step disk) .initial es s) (hstep : Step disk s (.interrupt irq status fifo) t)
    (hdone : Completes s.sd o irq status) (hop : s.sd.op o = some op) (hblocks : 1 ≤ op.blocks)
    (hbuffer : 0x1000 ≤ op.destination ∧ op.destination + 512 * op.blocks ≤ 2 ^ 32) :
    Delivered disk m t.sd.stores o op ↔ op.blocks = 1 := by
  obtain ⟨⟨earlier, hearlier⟩, hfilter, haddress⟩ := completed_stores h hstep hdone hop hblocks
  constructor
  · intro hdelivered
    by_contra hne
    -- the first word of this block lies behind the buffer, or wraps around to before it
    have hk : (op.blocks + 3) / 4 < op.blocks := by omega
    obtain ⟨x, hx, hplace⟩ := storesOf_head disk o op.destination op.address hk
    have hmem : x ∈ t.sd.stores := by
      rw [hearlier]
      exact List.mem_append_right earlier hx
    obtain ⟨hlow, hhigh⟩ := hdelivered.inside x hmem (storesOf_operation hx)
    simp only [wrap, blockSize] at hplace
    omega
  · intro hone
    rw [hone] at hearlier hfilter hbuffer
    refine ⟨fun k hk j hj => ?_, fun x hx ho => ?_⟩
    · obtain rfl : k = 0 := by omega
      rw [hearlier, List.map_append, Memory.after_append]
      have hlanded := landed disk o op.destination op.address (after m (earlier.map place)) (by omega) Nat.zero_lt_one hj
      simpa only [Nat.mul_zero, Nat.add_zero, Word.wrap_of_lt haddress] using hlanded
    · have hx' : x ∈ storesOf disk o op.destination op.address 1 := by
        rw [← hfilter]
        exact List.mem_filter.mpr ⟨hx, by simpa using ho⟩
      obtain ⟨i, hi, hplace⟩ := mem_storeWords (by simpa [storesOf] using hx')
      rw [block_length] at hi
      simp only [wrap, blockSize] at hplace
      omega

/-! ## One block and two -/

/-- A card on which every word tells its block and its place. -/
def numbered (address i : Nat) : Nat := 256 * address + i

/-- An operation of `blocks` blocks from block 7 on, up to the interrupt that completes it. -/
def reading (blocks : Nat) : List Event :=
  [.construct 1 0x81400000 blocks 7 none, .post 1, .interrupt 83 1 []] ++
    (List.range (blocks - 1)).flatMap (fun k =>
      [.interrupt 83 (bits [brr]) (block numbered (7 + k)), .interrupt 83 (bits [tc]) []]) ++
    [.interrupt 83 (bits [brr]) (block numbered (7 + (blocks - 1)))]

/-- The state before one block is completed, and the state after. -/
def oneBlock : System := ((reading 1).foldlM (step numbered) .initial).get (by decide +kernel)

def oneBlockEnd : System :=
  (step numbered oneBlock (.interrupt 83 (bits [tc]) [])).get (by decide +kernel)

/-- The same for two blocks. -/
def twoBlocks : System := ((reading 2).foldlM (step numbered) .initial).get (by decide +kernel)

def twoBlocksEnd : System :=
  (step numbered twoBlocks (.interrupt 83 (bits [tc]) [])).get (by decide +kernel)

theorem oneBlock_run : Run (Step numbered) .initial (reading 1) oneBlock :=
  Run.of_foldlM (fun _ _ _ h => h) (Option.some_get _).symm

theorem twoBlocks_run : Run (Step numbered) .initial (reading 2) twoBlocks :=
  Run.of_foldlM (fun _ _ _ h => h) (Option.some_get _).symm

theorem oneBlock_delivered :
    Delivered numbered (fun _ => 0) oneBlockEnd.sd.stores 1
      ⟨0x81400000, 1, 1, 7, none, .incomplete⟩ :=
  (run_delivered (fun _ => 0) oneBlock_run (Option.some_get _).symm
    ⟨rfl, by decide, by decide +kernel, by decide, by decide,
      ⟨0x81400000, 1, 1, 7, none, .incomplete⟩, by decide +kernel, by decide⟩
    (by decide +kernel) (by decide) (by decide)).mpr rfl

/-- The second block of two is stored 1024 bytes behind the end of the buffer. -/
theorem twoBlocks_not_delivered : ¬ ∀ (disk : Nat → Nat → Nat) (es : List Event) (s t : System)
    (o irq status : Nat) (fifo : List Nat) (op : BlockReadOperation) (m : Nat → Nat),
    Run (Step disk) .initial es s → Step disk s (.interrupt irq status fifo) t →
    Completes s.sd o irq status → s.sd.op o = some op → 1 ≤ op.blocks →
    (0x1000 ≤ op.destination ∧ op.destination + 512 * op.blocks ≤ 2 ^ 32) →
    Delivered disk m t.sd.stores o op := by
  intro hclaim
  have hdelivered := hclaim numbered (reading 2) twoBlocks twoBlocksEnd 1 83 (bits [tc]) []
    ⟨0x81400000, 2, 2, 7, none, .incomplete⟩ (fun _ => 0) twoBlocks_run (Option.some_get _).symm
    ⟨rfl, by decide, by decide +kernel, by decide, by decide,
      ⟨0x81400000, 2, 2, 7, none, .incomplete⟩, by decide +kernel, by decide⟩
    (by decide +kernel) (by decide) (by decide)
  have hbehind : ⟨1, 0x81400800, 0x800⟩ ∈ twoBlocksEnd.sd.stores := by decide +kernel
  have hinside := (hdelivered.inside _ hbehind rfl).2
  simp at hinside

end WagtailTransfer
