import Mathlib.Tactic.IntervalCases
import Wagtail.Partition

/-!
# The partition table

`sd::read_partition_table` after its block has been read, and the table that it reads: four
entries of 16 bytes at the end of the block. What has been written as an entry is what the
partition gets, for every other content of the block.
-/
namespace WagtailPartitionTable

open Word (wrap)
open WagtailFilesystem (Buffer Partition le32 wrap64)
open WagtailKstring (Kstring)

/-! ## Reading -/

/-- `partition::partname`. -/
def partname (basename : Kstring) (partnum : Nat) : Kstring :=
  let retval := basename ++ ['p']
  match partnum with
  | 0 => retval ++ ['0']
  | 1 => retval ++ ['1']
  | 2 => retval ++ ['2']
  | 3 => retval ++ ['3']
  | _ => retval ++ ['!']

/-- What the constructor of `partition` is called with, and the name of the device. -/
structure NewPartition where
  start : Nat
  stop : Nat
  type : UInt8
  name : Kstring
  deriving DecidableEq, Repr

/-- The name of the card. -/
def cardName : Kstring := ['s', 'd', '0']

/-- An address in the table, of two halves of words. -/
def address (buffer : Buffer) (offset : Nat) : Nat :=
  le32 buffer (offset - 2) >>> 16 ||| wrap (le32 buffer (offset + 2) <<< 16)

/-- A round of the loop in `sd::read_partition_table`. -/
def readEntry (buffer : Buffer) (i : Nat) : Option NewPartition :=
  let type := buffer (446 + 4 + i * 16)
  let startAddress := address buffer (446 + 8 + i * 16)
  let endAddress := wrap64 (address buffer (446 + 12 + i * 16) + startAddress)
  if type ≠ 0 then some ⟨startAddress, endAddress, type, partname cardName i⟩ else none

/-- The loop in `sd::read_partition_table`. -/
def readPartitionTable (buffer : Buffer) : List (Option NewPartition) :=
  (List.range 4).map (readEntry buffer)

/-! ## Writing -/

/-- An entry, with the bytes that the kernel does not look at. -/
structure Entry where
  status : UInt8
  firstChs : UInt8 × UInt8 × UInt8
  type : UInt8
  lastChs : UInt8 × UInt8 × UInt8
  start : Nat
  size : Nat
  start_lt : start < 2 ^ 32
  size_lt : size < 2 ^ 32

/-- A word, the lowest byte first. -/
def wordBytes (n : Nat) : List UInt8 :=
  [.ofNat n, .ofNat (n / 2 ^ 8), .ofNat (n / 2 ^ 16), .ofNat (n / 2 ^ 24)]

def Entry.bytes (e : Entry) : List UInt8 :=
  [e.status, e.firstChs.1, e.firstChs.2.1, e.firstChs.2.2, e.type, e.lastChs.1, e.lastChs.2.1,
    e.lastChs.2.2] ++ wordBytes e.start ++ wordBytes e.size

theorem Entry.bytes_length (e : Entry) : e.bytes.length = 16 := rfl

/-- A block that ends with four entries and two more bytes. -/
structure Table where
  code : List UInt8
  entries : List Entry
  signature : List UInt8
  code_length : code.length = 446
  entries_length : entries.length = 4
  signature_length : signature.length = 2

def Table.bytes (t : Table) : List UInt8 := t.code ++ t.entries.flatMap Entry.bytes ++ t.signature

def Table.buffer (t : Table) : Buffer := fun i => t.bytes.getD i 0

/-! ## Words -/

variable {t : Table} {e : Entry} {buffer : Buffer} {i n : Nat}

theorem or_shiftLeft {a : Nat} (b : Nat) {k : Nat} (h : a < 2 ^ k) : a ||| b <<< k = a + b * 2 ^ k := by
  rw [Nat.lor_comm, ← Nat.shiftLeft_add_eq_or_of_lt h, Nat.shiftLeft_eq, Nat.add_comm]

/-- The bytes of a word as digits. -/
theorem le32_eq (buffer : Buffer) (i : Nat) : le32 buffer i = (buffer i).toNat +
    (buffer (i + 1)).toNat * 2 ^ 8 + (buffer (i + 2)).toNat * 2 ^ 16 +
    (buffer (i + 3)).toNat * 2 ^ 24 := by
  have h0 := (buffer i).toNat_lt
  have h1 := (buffer (i + 1)).toNat_lt
  have h2 := (buffer (i + 2)).toNat_lt
  have h01 : (buffer i).toNat + (buffer (i + 1)).toNat * 2 ^ 8 < 2 ^ 16 := by omega
  have h012 : (buffer i).toNat + (buffer (i + 1)).toNat * 2 ^ 8 +
      (buffer (i + 2)).toNat * 2 ^ 16 < 2 ^ 24 := by omega
  rw [le32, or_shiftLeft (buffer (i + 1)).toNat h0, or_shiftLeft (buffer (i + 2)).toNat h01,
    or_shiftLeft (buffer (i + 3)).toNat h012]

/-- The two halves make up the word at the offset. -/
theorem address_eq (buffer : Buffer) {offset : Nat} (h : 2 ≤ offset) :
    address buffer offset = le32 buffer offset := by
  obtain ⟨k, rfl⟩ := Nat.exists_eq_add_of_le' h
  have h0 := (buffer k).toNat_lt
  have h1 := (buffer (k + 1)).toNat_lt
  have h2 := (buffer (k + 2)).toNat_lt
  have h3 := (buffer (k + 3)).toNat_lt
  have h4 := (buffer (k + 4)).toNat_lt
  have h5 := (buffer (k + 5)).toNat_lt
  have hlow : le32 buffer (k + 2 - 2) >>> 16 =
      (buffer (k + 2)).toNat + (buffer (k + 3)).toNat * 2 ^ 8 := by
    rw [Nat.add_sub_cancel, Nat.shiftRight_eq_div_pow, le32_eq]
    omega
  have hhigh : wrap (le32 buffer (k + 2 + 2) <<< 16) =
      ((buffer (k + 4)).toNat + (buffer (k + 5)).toNat * 2 ^ 8) <<< 16 := by
    rw [Nat.shiftLeft_eq, Nat.shiftLeft_eq, le32_eq, wrap]
    simp only [Nat.add_assoc, Nat.reduceAdd]
    omega
  rw [address, hlow, hhigh, or_shiftLeft _ (by omega), le32_eq]
  simp only [Nat.add_assoc, Nat.reduceAdd]
  omega

/-- A word is read back from its bytes. -/
theorem le32_wordBytes (hn : n < 2 ^ 32)
    (h : ∀ j < 4, buffer (i + j) = (wordBytes n).getD j 0) : le32 buffer i = n := by
  have h0 : buffer i = .ofNat n := h 0 (by decide)
  have h1 : buffer (i + 1) = .ofNat (n / 2 ^ 8) := h 1 (by decide)
  have h2 : buffer (i + 2) = .ofNat (n / 2 ^ 16) := h 2 (by decide)
  have h3 : buffer (i + 3) = .ofNat (n / 2 ^ 24) := h 3 (by decide)
  rw [le32_eq, h0, h1, h2, h3]
  simp only [UInt8.toNat_ofNat']
  omega

/-! ## Entries -/

theorem flatMap_getElem? {entries : List Entry} (h : entries[i]? = some e) {j : Nat} (hj : j < 16)
    (rest : List UInt8) :
    (entries.flatMap Entry.bytes ++ rest)[i * 16 + j]? = e.bytes[j]? := by
  induction entries generalizing i with
  | nil => cases h
  | cons first entries ih =>
    rw [List.flatMap_cons, List.append_assoc]
    cases i with
    | zero =>
      obtain rfl := Option.some.inj h
      rw [Nat.zero_mul, Nat.zero_add, List.getElem?_append_left (by rwa [Entry.bytes_length])]
    | succ i =>
      have hle : first.bytes.length ≤ (i + 1) * 16 + j := by
        rw [Entry.bytes_length]
        omega
      have hsub : (i + 1) * 16 + j - first.bytes.length = i * 16 + j := by
        rw [Entry.bytes_length]
        omega
      rw [List.getElem?_append_right hle, hsub]
      exact ih h

/-- The bytes of an entry are found behind the code. -/
theorem Table.buffer_entry (t : Table) (h : t.entries[i]? = some e) {j : Nat} (hj : j < 16) :
    t.buffer (446 + i * 16 + j) = e.bytes.getD j 0 := by
  have hle : t.code.length ≤ 446 + i * 16 + j := by
    rw [t.code_length]
    omega
  have hsub : 446 + i * 16 + j - t.code.length = i * 16 + j := by
    rw [t.code_length]
    omega
  rw [Table.buffer, List.getD_eq_getElem?_getD, Table.bytes, List.append_assoc,
    List.getElem?_append_right hle, hsub, flatMap_getElem? h hj, List.getD_eq_getElem?_getD]

theorem Table.start_eq (t : Table) (h : t.entries[i]? = some e) :
    address t.buffer (446 + 8 + i * 16) = e.start := by
  rw [address_eq _ (by omega)]
  refine le32_wordBytes e.start_lt fun j hj => ?_
  have hbyte := t.buffer_entry h (show 8 + j < 16 by omega)
  rw [show 446 + 8 + i * 16 + j = 446 + i * 16 + (8 + j) by omega, hbyte]
  interval_cases j <;> rfl

theorem Table.size_eq (t : Table) (h : t.entries[i]? = some e) :
    address t.buffer (446 + 12 + i * 16) = e.size := by
  rw [address_eq _ (by omega)]
  refine le32_wordBytes e.size_lt fun j hj => ?_
  have hbyte := t.buffer_entry h (show 12 + j < 16 by omega)
  rw [show 446 + 12 + i * 16 + j = 446 + i * 16 + (12 + j) by omega, hbyte]
  interval_cases j <;> rfl

/-! ## Round trip -/

/-- The partition that an entry describes. -/
def Entry.partition (e : Entry) (i : Nat) : Option NewPartition :=
  if e.type = 0 then none else some ⟨e.start, e.start + e.size, e.type, partname cardName i⟩

theorem readEntry_eq (t : Table) (h : t.entries[i]? = some e) :
    readEntry t.buffer i = e.partition i := by
  have hstart := e.start_lt
  have hsize := e.size_lt
  have htype : t.buffer (446 + 4 + i * 16) = e.type := by
    rw [show 446 + 4 + i * 16 = 446 + i * 16 + 4 by omega, t.buffer_entry h (by decide)]
    rfl
  have hend : wrap64 (e.size + e.start) = e.start + e.size := by
    rw [wrap64, Nat.mod_eq_of_lt (by omega), Nat.add_comm]
  simp only [readEntry, htype, t.start_eq h, t.size_eq h, hend, Entry.partition]
  by_cases h0 : e.type = 0 <;> simp [h0]

/-- Whatever the block holds before and behind its entries, the partitions are those that the
entries describe, with the names of their numbers. -/
theorem readPartitionTable_eq (t : Table) :
    readPartitionTable t.buffer = t.entries.mapIdx fun i e => e.partition i := by
  refine List.ext_getElem? fun i => ?_
  rw [readPartitionTable, List.getElem?_map, List.getElem?_mapIdx]
  by_cases hi : i < 4
  · have hentry := List.getElem?_eq_getElem (l := t.entries) (by rwa [t.entries_length])
    rw [List.getElem?_range hi, hentry, Option.map_some, Option.map_some, readEntry_eq t hentry]
  · rw [List.getElem?_eq_none (by simpa using hi), List.getElem?_eq_none (by
      rw [t.entries_length]
      omega)]
    rfl

/-- The size of the partition is the one of the entry. -/
theorem partition_size (disk : Nat → Nat → UInt8) (e : Entry) :
    Partition.size ⟨e.start, e.start + e.size, disk⟩ = e.size := by
  have hstart := e.start_lt
  have hsize := e.size_lt
  show (2 ^ 64 + (e.start + e.size) - e.start) % 2 ^ 64 = e.size
  omega

/-- No two partitions have the same name. -/
theorem partname_injective {basename : Kstring} {i j : Nat} (hi : i < 4) (hj : j < 4)
    (h : partname basename i = partname basename j) : i = j := by
  interval_cases i <;> interval_cases j <;> simp_all [partname]

end WagtailPartitionTable
