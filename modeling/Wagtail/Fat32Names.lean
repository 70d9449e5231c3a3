import Wagtail.Fat32Paths

/-!
# Long file names

The records that a long name is written in, and that the driver puts it together
from them again, whatever stands before and behind them in the directory.
-/
namespace WagtailFat32

open WagtailKstring
open WagtailFilesystem

/-! ## Writing names -/

/-- The two bytes at a position behind the start of a name: those of its character, of the zero
behind the last one, or of the padding. -/
def nameUnit (name : Kstring) (p : Nat) : UInt8 × UInt8 :=
  match name[p]? with
  | some c => (UInt8.ofNat c.toNat, 0)
  | none => if p = name.length then (0, 0) else (0xff, 0xff)

/-- The checksum of a short name, which the records of its long name repeat. -/
def checksum (short : Buffer) : UInt8 :=
  (List.range 11).foldl (fun sum j => (sum <<< 7 ||| sum >>> 1) + short j) 0

/-- The number of long-name records, with 13 characters in each. -/
def partCount (name : Kstring) : Nat := (name.length + 12) / 13

/-- The number of a part, from one on; the last part has a flag. -/
def ordinal (name : Kstring) (k : Nat) : UInt8 :=
  UInt8.ofNat (if k + 1 = partCount name then 0x40 + (k + 1) else k + 1)

/-- The long-name record with part `k` of a name. -/
def longNameRecord (name : Kstring) (short : Buffer) (k : Nat) : Buffer := fun j =>
  let low p := (nameUnit name (13 * k + p)).1
  let high p := (nameUnit name (13 * k + p)).2
  let bytes : List UInt8 :=
    [ordinal name k,
      low 0, high 0, low 1, high 1, low 2, high 2, low 3, high 3, low 4, high 4,
      attrLongName, 0, checksum short,
      low 5, high 5, low 6, high 6, low 7, high 7, low 8, high 8, low 9, high 9, low 10, high 10,
      0, 0,
      low 11, high 11, low 12, high 12]
  bytes.getD j 0

/-- What stands in a directory: a file, whose long name may be empty for none, or a record of a
file that has been deleted. -/
inductive Stored where
  | file (longName : Kstring) (short : Buffer)
  | deleted (record : Buffer)

/-- The records of it, the last part of a long name first. -/
def Stored.records : Stored → List Buffer
  | .file longName short =>
    (List.range (partCount longName)).reverse.map (longNameRecord longName short) ++ [short]
  | .deleted record => [record]

/-- Long names of ASCII characters, and first bytes and attributes that fit the kind. -/
def Stored.Valid : Stored → Prop
  | .file longName short => (∀ c ∈ longName, 0 < c.toNat ∧ c.toNat < 128) ∧
      (short 0 ≠ 0x00 ∧ short 0 ≠ 0xe5) ∧ short 11 &&& attrLongName ≠ attrLongName
  | .deleted record => record 0 = 0xe5

instance (x : Stored) : Decidable x.Valid :=
  match x with
  | .file longName _ =>
    have := List.decidableBAll (fun c : Char => 0 < c.toNat ∧ c.toNat < 128) longName
    inferInstanceAs (Decidable (_ ∧ _ ∧ _))
  | .deleted _ => inferInstanceAs (Decidable (_ = _))

/-- The name under which it is listed. -/
def Stored.name : Stored → Option Kstring
  | .file longName short => some (if longName = [] then shortName short 0 else longName)
  | .deleted _ => none

/-- The buffer has these records from `i` on, and the end marker behind them. -/
def Written (buffer : Buffer) : Nat → List Buffer → Prop
  | i, [] => buffer i = 0x00
  | i, record :: records =>
    (∀ j < 32, buffer (i + j) = record j) ∧ Written buffer (i + 32) records

instance decidableWritten (buffer : Buffer) :
    ∀ (i : Nat) (records : List Buffer), Decidable (Written buffer i records)
  | _, [] => inferInstanceAs (Decidable (_ = _))
  | i, _ :: records =>
    have := decidableWritten buffer (i + 32) records
    inferInstanceAs (Decidable (_ ∧ _))

/-! ## Reading one name -/

section Names

variable {buffer record : Buffer} {n i k : Nat} {l : Listing} {es : List Direntry}
  {name : Kstring} {short : Buffer} {records rest : List Buffer}

/-- What the driver does with a record, in terms of the record alone. -/
theorem scan_record (h : ∀ j < 32, buffer (i + j) = record j) :
    scan buffer (n + 1) i l =
      if record 0 = 0xe5 then scan buffer n (i + 32) { l with longFilename := [] }
      else if record 0 = 0x00 then (l, true)
      else if record 11 &&& attrLongName = attrLongName then
        scan buffer n (i + 32) { l with longFilename := longNamePart record 0 ++ l.longFilename }
      else scan buffer n (i + 32) ⟨l.entries ++ [newEntry record 0 l.longFilename], []⟩ := by
  have hshift : ∀ j < 32, buffer (i + j) = record (0 + j) := fun j hj => by
    rw [Nat.zero_add]
    exact h j hj
  have hmark : buffer i = record 0 := h 0 (by decide)
  rw [scan, hmark, h 11 (by decide), longNamePart_congr hshift, newEntry_congr hshift]

theorem ofBytes_cons {b : UInt8} (hb : b ≠ 0) (bytes : List UInt8) :
    ofBytes (b :: bytes) = Char.ofNat b.toNat :: ofBytes bytes := by
  simp [ofBytes, hb]

theorem ofBytes_zero (bytes : List UInt8) : ofBytes (0 :: bytes) = [] := by
  simp [ofBytes]

/-- The low bytes from a position on spell the name from there, up to its end. -/
theorem ofBytes_units (hascii : ∀ c ∈ name, 0 < c.toNat ∧ c.toNat < 128) (n : Nat) {m : Nat}
    (hm : m ≤ name.length) :
    ofBytes ((List.range n).map fun p => (nameUnit name (m + p)).1) = (name.drop m).take n := by
  induction n generalizing m with
  | zero => simp [ofBytes]
  | succ n ih =>
    rw [List.range_succ_eq_map, List.map_cons, List.map_map, Nat.add_zero]
    by_cases hend : m = name.length
    · have hunit : (nameUnit name m).1 = 0 := by simp [nameUnit, hend]
      rw [hunit, ofBytes_zero, hend, List.drop_length, List.take_nil]
    · have hlt : m < name.length := by omega
      obtain ⟨hpos, hbound⟩ := hascii name[m] (List.getElem_mem hlt)
      have hunit : (nameUnit name m).1 = UInt8.ofNat name[m].toNat := by
        simp [nameUnit, List.getElem?_eq_getElem hlt]
      have hvalue : (UInt8.ofNat name[m].toNat).toNat = name[m].toNat := by
        rw [UInt8.toNat_ofNat']
        omega
      have hne : UInt8.ofNat name[m].toNat ≠ 0 := fun hzero => by
        rw [hzero] at hvalue
        simp at hvalue
        omega
      have hrest : (fun p => (nameUnit name (m + p)).1) ∘ Nat.succ =
          fun p => (nameUnit name (m + 1 + p)).1 := by
        funext p
        rw [Function.comp_apply, Nat.succ_eq_add_one, Nat.add_comm p 1, Nat.add_assoc]
      rw [hunit, ofBytes_cons hne, hvalue, Char.ofNat_toNat, hrest, ih hlt,
        List.drop_eq_getElem_cons hlt, List.take_succ_cons]

/-- The driver takes the part of the name out of its record. -/
theorem longNamePart_record (hascii : ∀ c ∈ name, 0 < c.toNat ∧ c.toNat < 128)
    (hk : 13 * k ≤ name.length) :
    longNamePart (longNameRecord name short k) 0 = (name.drop (13 * k)).take 13 := by
  rw [← ofBytes_units hascii 13 hk]
  rfl

theorem ordinal_spec (hk : k < partCount name) (hcount : partCount name ≤ blockSize / 32) :
    ordinal name k ≠ 0x00 ∧ ordinal name k ≠ 0xe5 := by
  have hblock : blockSize / 32 = 16 := rfl
  have hvalue : 0 < (ordinal name k).toNat ∧ (ordinal name k).toNat < 0xe5 := by
    rw [ordinal, UInt8.toNat_ofNat']
    split_ifs <;> omega
  constructor
  · intro hzero
    rw [hzero] at hvalue
    exact absurd hvalue.1 (by decide)
  · intro hempty
    rw [hempty] at hvalue
    exact absurd hvalue.2 (by decide)

/-- One of its records puts the part in front of what follows in the name. -/
theorem scan_longNameRecord (hascii : ∀ c ∈ name, 0 < c.toNat ∧ c.toNat < 128)
    (hk : k < partCount name) (hcount : partCount name ≤ blockSize / 32)
    (h : ∀ j < 32, buffer (i + j) = longNameRecord name short k j) :
    scan buffer (n + 1) i ⟨es, name.drop (13 * (k + 1))⟩ =
      scan buffer n (i + 32) ⟨es, name.drop (13 * k)⟩ := by
  obtain ⟨hmark, hempty⟩ := ordinal_spec hk hcount
  have hle : 13 * k ≤ name.length := by
    simp only [partCount] at hk
    omega
  have hmark' : longNameRecord name short k 0 ≠ 0x00 := hmark
  have hempty' : longNameRecord name short k 0 ≠ 0xe5 := hempty
  have hattr : longNameRecord name short k 11 &&& attrLongName = attrLongName :=
    UInt8.and_self
  have hjoin : (name.drop (13 * k)).take 13 ++ name.drop (13 * (k + 1)) = name.drop (13 * k) := by
    rw [Nat.mul_succ, ← List.drop_drop, List.take_append_drop]
  rw [scan_record h, if_neg hempty', if_neg hmark', if_pos hattr, longNamePart_record hascii hle,
    hjoin]

theorem Written.drop (hw : Written buffer i (records ++ rest)) :
    Written buffer (i + 32 * records.length) rest := by
  induction records generalizing i with
  | nil => exact hw
  | cons record records ih =>
    rw [List.length_cons, Nat.mul_succ, Nat.add_comm (32 * _), ← Nat.add_assoc]
    exact ih hw.2

/-- All of them, from the last part to the first, leave the whole name. -/
theorem scan_longName (es : List Direntry) (hascii : ∀ c ∈ name, 0 < c.toNat ∧ c.toNat < 128)
    (hk : k ≤ partCount name) (hcount : partCount name ≤ blockSize / 32)
    (hw : Written buffer i ((List.range k).reverse.map (longNameRecord name short) ++ rest)) :
    scan buffer (k + n) i ⟨es, name.drop (13 * k)⟩ = scan buffer n (i + 32 * k) ⟨es, name⟩ := by
  induction k generalizing i with
  | zero => simp
  | succ k ih =>
    rw [List.range_succ, List.reverse_append, List.reverse_singleton, List.singleton_append,
      List.map_cons, List.cons_append] at hw
    rw [Nat.add_right_comm, scan_longNameRecord hascii hk hcount hw.1, ih (by omega) hw.2]
    congr 1
    omega

/-! ## Reading a directory -/

/-- The entries for what is stored. -/
def Stored.entries : Stored → List Direntry
  | .file longName short => [newEntry short 0 longName]
  | .deleted _ => []

theorem Stored.entries_name (x : Stored) : x.entries.map Direntry.name = x.name.toList := by
  cases x with
  | file longName short =>
    simp only [entries, name, newEntry, List.map_singleton, Option.toList_some, ne_eq,
      List.length_eq_zero_iff, ite_not]
  | deleted record => rfl

/-- A file or a deleted record leaves the accumulator for long names empty, as it found it. -/
theorem scan_stored {x : Stored} (hvalid : x.Valid) (hcount : x.records.length ≤ blockSize / 32)
    (hw : Written buffer i (x.records ++ rest)) :
    scan buffer (x.records.length + n) i ⟨es, []⟩ =
      scan buffer n (i + 32 * x.records.length) ⟨es ++ x.entries, []⟩ := by
  cases x with
  | file longName short =>
    obtain ⟨hascii, ⟨hmark, hempty⟩, hattr⟩ := hvalid
    have hlength : (Stored.file longName short).records.length = partCount longName + 1 := by
      simp [Stored.records]
    rw [hlength] at hcount ⊢
    rw [Stored.records, List.append_assoc] at hw
    have hlast : longName.drop (13 * partCount longName) = [] := by
      rw [List.drop_eq_nil_iff, partCount]
      omega
    have hname := scan_longName (n := 1 + n) es hascii (Nat.le_refl _) (by omega) hw
    rw [hlast] at hname
    have hshort := hw.drop
    rw [List.length_map, List.length_reverse, List.length_range] at hshort
    rw [Nat.add_assoc, hname, Nat.add_comm 1 n, scan_record hshort.1, if_neg hempty, if_neg hmark,
      if_neg hattr, Nat.mul_succ, Nat.add_assoc]
    rfl
  | deleted record =>
    have hrecord : record 0 = 0xe5 := hvalid
    rw [Stored.records, List.length_singleton, Nat.add_comm 1 n, scan_record hw.1, if_pos hrecord,
      Stored.entries, List.append_nil, Nat.mul_one]

/-- The loop over the records lists everything that is stored. -/
theorem scan_directory {items : List Stored} (hvalid : ∀ x ∈ items, x.Valid)
    (hcount : (items.flatMap Stored.records).length ≤ blockSize / 32)
    (hw : Written buffer i (items.flatMap Stored.records)) :
    scan buffer ((items.flatMap Stored.records).length + (n + 1)) i ⟨es, []⟩ =
      (⟨es ++ items.flatMap Stored.entries, []⟩, true) := by
  induction items generalizing i es with
  | nil =>
    have hmark : buffer i = 0x00 := hw
    simp [scan, hmark]
  | cons x items ih =>
    rw [List.flatMap_cons] at hw hcount ⊢
    rw [List.length_append] at hcount ⊢
    rw [Nat.add_assoc, scan_stored (hvalid x (by simp)) (by omega) hw,
      ih (fun y hy => hvalid y (List.mem_cons_of_mem x hy)) (by omega) hw.drop,
      List.flatMap_cons, List.append_assoc]

/-- Every file in the first sector is listed under its long name, or under its own short name if
it has none. -/
theorem names_round_trip {fs : Fat32} {cluster : Nat} {items : List Stored}
    (hvalid : ∀ x ∈ items, x.Valid)
    (hfits : (items.flatMap Stored.records).length < blockSize / 32)
    (hwritten : Written (clusterBuffer fs cluster) 0 (items.flatMap Stored.records)) :
    ∃ list, (readDirectoryCluster fs cluster).value = some list ∧
      list.map Direntry.name = items.filterMap Stored.name := by
  obtain ⟨n, hn⟩ : ∃ n, blockSize / 32 = (items.flatMap Stored.records).length + (n + 1) :=
    ⟨blockSize / 32 - (items.flatMap Stored.records).length - 1, by omega⟩
  have hscan : firstRecords fs cluster = (⟨items.flatMap Stored.entries, []⟩, true) := by
    rw [firstRecords, hn]
    exact scan_directory hvalid (by omega) hwritten
  refine ⟨items.flatMap Stored.entries, ?_, ?_⟩
  · rw [readDirectoryCluster_value, firstSector, hscan]
    rfl
  · rw [List.map_flatMap, List.filterMap_eq_flatMap_toList]
    exact congrArg (items.flatMap ·) (funext Stored.entries_name)

end Names

/-! ## A directory of three files -/

/-- A sector with these records, and zeros behind them. -/
def sector (records : List Buffer) : Buffer := fun i =>
  match records[i / 32]? with
  | some record => record (i % 32)
  | none => 0

/-- The record of a file with the short name `F`. -/
def shortRecord : Buffer
  | 0 => 0x46
  | j => if j < 11 then 0x20 else 0

/-- Names of 13 and of 16 characters around a deleted record and a file without a long name. -/
def threeFiles : List Stored :=
  [.file ['k', 'e', 'r', 'n', 'e', 'l', '.', 'c', 'o', 'n', 'f', 'i', 'g'] shortRecord,
    .deleted fun _ => 0xe5, .file [] shortRecord,
    .file ['w', 'a', 'g', 't', 'a', 'i', 'l', '.', 'c', 'o', 'm', 'm', 'a', 'n', 'd', 's'] shortRecord]

def namedPartition : Partition :=
  { smallPartition with
    disk := fun address i =>
      if address = 12 then sector (threeFiles.flatMap Stored.records) i
      else smallPartition.disk address i }

def namedVolume : Fat32 := headerFields namedPartition (headerSector namedPartition)

theorem namedVolume_names :
    ∃ list, (readDirectoryCluster namedVolume 2).value = some list ∧
      list.map Direntry.name = threeFiles.filterMap Stored.name :=
  names_round_trip (by decide) (by decide) (by decide +kernel)

end WagtailFat32
