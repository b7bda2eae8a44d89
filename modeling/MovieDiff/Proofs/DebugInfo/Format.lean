import Mathlib.Data.List.Nodup
import Mathlib.Data.List.TakeWhile
import MovieDiff.DebugInfo.File
import MovieDiff.Proofs.Results
import MovieDiff.Proofs.Text.Utf8

/-!
The format of debug files, and reading as its inverse. Each reader is given by the written forms
that it accepts: numbers of four bytes, texts up to a zero byte, lists of registers, and records
with their tag. A file in the format is read as its records, in their order.
-/
namespace MovieDiff.DebugInfo


variable {fuel : Nat} {records extra : List Record} {names : Keyed Nat String} {rest : Bytes}
  {file : DebugFile}

/-! ### The format -/

/-- A text that a zero byte can end. -/
structure StoredText where
  text : String
  zeroFree : '\x00' ∉ text.toList

/-- Names of registers by index. Their number takes one byte. -/
structure RegisterTable where
  entries : List (UInt8 × StoredText)
  length_lt : entries.length < 256

/-- A record with all that a file holds of it. -/
inductive StoredRecord where
  | script (module bitmap : UInt32) (name text : StoredText)
  | offset (module line offset : UInt32)
  | breakpoint (payload : Vector UInt8 4)
  | identifier (payload : Vector UInt8 16)
  | registers (offset : UInt32) (table : RegisterTable)

/-- Lowest byte first. -/
def numberBytes (n : UInt32) : Bytes :=
  [.ofNat n.toNat, .ofNat (n.toNat / 256), .ofNat (n.toNat / 65536), .ofNat (n.toNat / 16777216)]

def StoredText.bytes (t : StoredText) : Bytes :=
  Text.encode t.text ++ [0]

def entryBytes (entry : UInt8 × StoredText) : Bytes :=
  entry.1 :: entry.2.bytes

def RegisterTable.bytes (table : RegisterTable) : Bytes :=
  UInt8.ofNat table.entries.length :: table.entries.flatMap entryBytes

namespace StoredRecord

def tag : StoredRecord → UInt32
  | script .. => 0
  | offset .. => 1
  | breakpoint _ => 2
  | identifier _ => 3
  | registers .. => 5

def payload : StoredRecord → Bytes
  | script module bitmap name text =>
    numberBytes module ++ numberBytes bitmap ++ name.bytes ++ text.bytes
  | offset module line position => numberBytes module ++ numberBytes line ++ numberBytes position
  | breakpoint payload => payload.toList
  | identifier payload => payload.toList
  | registers position table => numberBytes position ++ table.bytes

def bytes (record : StoredRecord) : Bytes :=
  numberBytes record.tag ++ record.payload

def script? : StoredRecord → Option ScriptRecord
  | script module bitmap name text => some ⟨module.toNat, bitmap.toNat, name.text, text.text⟩
  | _ => none

def offset? : StoredRecord → Option OffsetRecord
  | offset module line position => some ⟨module.toNat, line.toNat, position.toNat⟩
  | _ => none

def registers? : StoredRecord → Option RegistersRecord
  | registers position table =>
    some ⟨position.toNat, table.entries.map fun (index, name) => (index.toNat, name.text)⟩
  | _ => none

def DistinctIndices : StoredRecord → Prop
  | registers _ table => (table.entries.map Prod.fst).Nodup
  | _ => True

end StoredRecord

def fileBytes (version : UInt8) (records : List StoredRecord) : Bytes :=
  signature ++ version :: records.flatMap StoredRecord.bytes

/-! ### Readers -/

/-- What is skipped is there as a whole or ends the bytes. -/
theorem skip_cases (n : Nat) (bytes : Bytes) :
    (∃ payload : Vector UInt8 n, bytes = payload.toList ++ bytes.drop n) ∨
      bytes.length < n ∧ bytes.drop n = [] := by
  rcases Nat.lt_or_ge bytes.length n with hshort | hlong
  · exact .inr ⟨hshort, List.drop_eq_nil_of_le (Nat.le_of_lt hshort)⟩
  · refine .inl ⟨⟨(bytes.take n).toArray, ?_⟩, (List.take_append_drop n bytes).symm⟩
    rw [List.size_toArray, List.length_take, Nat.min_eq_left hlong]

open List

/-- A reader accepts just the written forms, and gives the value and the bytes that follow. -/
def Reads {σ α : Type} (read : Bytes → Except Fault (α × Bytes)) (write : σ → Bytes)
    (value : σ → α) : Prop :=
  ∀ bytes a rest, read bytes = .ok (a, rest) ↔ ∃ s, value s = a ∧ bytes = write s ++ rest

section Reads

variable {σ α β : Type} {read : Bytes → Except Fault (α × Bytes)} {write : σ → Bytes}
  {value : σ → α}

theorem Reads.read_append (h : Reads read write value) (s : σ) (rest : Bytes) :
    read (write s ++ rest) = .ok (value s, rest) :=
  (h _ _ _).2 ⟨s, rfl, rfl⟩

theorem Reads.bind_eq_ok_iff (h : Reads read write value) {next : α × Bytes → Except Fault β}
    {bytes : Bytes} {result : β} :
    read bytes >>= next = .ok result ↔
      ∃ s rest, bytes = write s ++ rest ∧ next (value s, rest) = .ok result := by
  constructor
  · intro hread
    obtain ⟨⟨a, rest⟩, hread, hnext⟩ := exists_of_bind_eq_ok hread
    obtain ⟨s, rfl, hbytes⟩ := (h _ _ _).1 hread
    exact ⟨s, rest, hbytes, hnext⟩
  · rintro ⟨s, rest, rfl, hnext⟩
    rw [h.read_append]
    exact hnext

end Reads

theorem readNumber_append (n : UInt32) (rest : Bytes) :
    readNumber (numberBytes n ++ rest) = .ok (n.toNat, rest) := by
  have hlt := n.toNat_lt
  refine congrArg (fun value => Except.ok (value, rest)) ?_
  simp only [UInt8.toNat_ofNat']
  omega

theorem numberBytes_eq {n : UInt32} {a b c d : UInt8}
    (h : n.toNat = a.toNat + 256 * (b.toNat + 256 * (c.toNat + 256 * d.toNat))) :
    numberBytes n = [a, b, c, d] := by
  have ha := a.toNat_lt
  have hb := b.toNat_lt
  have hc := c.toNat_lt
  have hd := d.toNat_lt
  simp only [numberBytes, List.cons.injEq, and_true, ← UInt8.toNat_inj, UInt8.toNat_ofNat', h]
  omega

/-- Numbers are read as they are written. -/
theorem reads_readNumber : Reads readNumber numberBytes UInt32.toNat := by
  intro bytes n rest
  constructor
  · intro h
    unfold readNumber at h
    split at h
    next a b c d later =>
      cases h
      have hlt : a.toNat + 256 * (b.toNat + 256 * (c.toNat + 256 * d.toNat)) < 2 ^ 32 := by
        have ha := a.toNat_lt
        have hb := b.toNat_lt
        have hc := c.toNat_lt
        have hd := d.toNat_lt
        omega
      have hword := UInt32.toNat_ofNat_of_lt' hlt
      exact ⟨_, hword, by rw [numberBytes_eq hword]; rfl⟩
    · cases h
  · rintro ⟨w, rfl, rfl⟩
    exact readNumber_append w rest

theorem reads_readByte : Reads readByte (fun b => [b]) UInt8.toNat := by
  intro bytes n rest
  constructor
  · intro h
    cases bytes with
    | nil => cases h
    | cons b later =>
      cases h
      exact ⟨b, rfl, rfl⟩
  · rintro ⟨b, rfl, rfl⟩
    rfl

theorem reads_readText : Reads readText StoredText.bytes StoredText.text := by
  intro bytes s rest
  constructor
  · intro h
    unfold readText at h
    split at h
    · cases h
    next zero later hdrop =>
      split at h
      next cs hdecoded =>
        cases h
        have hencoded := Text.decodeStrict_eq_some_iff.1 hdecoded
        have hzero : zero = 0 := by
          have hhead := head?_dropWhile_not (fun b : UInt8 => decide (b ≠ 0)) bytes
          rw [hdrop] at hhead
          simpa using hhead
        have hfree : '\x00' ∉ (String.ofList cs).toList := by
          rw [← Text.zero_mem_encode, ← hencoded]
          intro hmem
          simpa using mem_takeWhile_imp hmem
        refine ⟨⟨String.ofList cs, hfree⟩, rfl, ?_⟩
        calc bytes
          _ = bytes.takeWhile (· ≠ 0) ++ bytes.dropWhile (· ≠ 0) :=
            takeWhile_append_dropWhile.symm
          _ = Text.encode (String.ofList cs) ++ ([0] ++ rest) := by
            rw [hencoded, hdrop, hzero]
            rfl
          _ = Text.encode (String.ofList cs) ++ [0] ++ rest := (append_assoc ..).symm
      · cases h
  · rintro ⟨t, rfl, rfl⟩
    have hfree : ∀ b ∈ Text.encode t.text, decide (b ≠ 0) = true := by
      intro b hb
      have hzero := mt Text.zero_mem_encode.1 t.zeroFree
      exact decide_eq_true fun h => hzero (h ▸ hb)
    have htake : (t.bytes ++ rest).takeWhile (· ≠ 0) = Text.encode t.text := by
      rw [StoredText.bytes, append_assoc, takeWhile_append_of_pos hfree]
      simp
    have hdrop : (t.bytes ++ rest).dropWhile (· ≠ 0) = 0 :: rest := by
      rw [StoredText.bytes, append_assoc, dropWhile_append_of_pos hfree]
      simp
    rw [readText, hdrop]
    simp only [htake, Text.decodeStrict_encode, String.ofList_toList]

/-! ### Registers -/

/-- What is read of entries: a later name replaces an earlier one. -/
def namesOf (names : Keyed Nat String) (entries : List (UInt8 × StoredText)) : Keyed Nat String :=
  entries.foldl (fun names entry => Keyed.put entry.1.toNat entry.2.text names) names

/-- Registers are read entry by entry. -/
theorem readRegisters_eq_ok_iff {count : Nat} {out : Keyed Nat String} {bytes : Bytes} :
    readRegisters count names bytes = .ok (out, rest) ↔
      ∃ entries : List (UInt8 × StoredText), entries.length = count ∧
        namesOf names entries = out ∧ bytes = entries.flatMap entryBytes ++ rest := by
  induction count generalizing names bytes with
  | zero =>
    simp only [readRegisters, length_eq_zero_iff]
    constructor
    · intro h
      cases h
      exact ⟨[], rfl, rfl, rfl⟩
    · rintro ⟨entries, rfl, rfl, rfl⟩
      rfl
  | succ count ih =>
    simp only [readRegisters, reads_readByte.bind_eq_ok_iff, reads_readText.bind_eq_ok_iff, ih]
    constructor
    · rintro ⟨index, later, rfl, name, last, rfl, entries, hlength, hout, rfl⟩
      refine ⟨(index, name) :: entries, by rw [length_cons, hlength], hout, ?_⟩
      simp [entryBytes]
    · rintro ⟨entries, hlength, hout, rfl⟩
      obtain ⟨⟨index, name⟩, entries, rfl⟩ := exists_cons_of_length_eq_add_one hlength
      refine ⟨index, _, ?_, name, _, rfl, entries, Nat.succ.inj hlength, hout, rfl⟩
      simp [entryBytes]

section Put

variable {κ α β : Type} [DecidableEq κ] {table : Keyed κ α}

theorem put_of_notMem {key : κ} {value : α} (h : key ∉ table.map Prod.fst) :
    Keyed.put key value table = table ++ [(key, value)] := by
  induction table with
  | nil => rfl
  | cons entry rest ih =>
    rw [map_cons, mem_cons, not_or] at h
    rw [Keyed.put, if_neg (Ne.symm h.1), ih h.2]
    rfl

/-- Entries with new and different keys are put at the end. -/
theorem foldl_put_of_nodup {key : β → κ} {value : β → α} {xs : List β}
    (h : (table.map Prod.fst ++ xs.map key).Nodup) :
    xs.foldl (fun table x => Keyed.put (key x) (value x) table) table =
      table ++ xs.map fun x => (key x, value x) := by
  induction xs generalizing table with
  | nil => exact (append_nil table).symm
  | cons x rest ih =>
    have hnew : key x ∉ table.map Prod.fst := fun hmem =>
      (List.nodup_append.1 h).2.2 _ hmem _ mem_cons_self rfl
    rw [foldl_cons, put_of_notMem hnew, ih (by simpa using h)]
    simp

end Put

/-- Distinct indices keep all names. -/
theorem RegisterTable.namesOf_entries (table : RegisterTable)
    (h : (table.entries.map Prod.fst).Nodup) :
    namesOf [] table.entries = table.entries.map fun (index, name) => (index.toNat, name.text) := by
  have hkeys : (table.entries.map fun entry => entry.1.toNat).Nodup := by
    have hmap := h.map fun _ _ => UInt8.toNat_inj.1
    rwa [map_map] at hmap
  exact foldl_put_of_nodup hkeys

/-! ### Records -/

namespace StoredRecord

def record : StoredRecord → Record
  | script module bitmap name text =>
    .script ⟨module.toNat, bitmap.toNat, name.text, text.text⟩
  | offset module line position => .offset ⟨module.toNat, line.toNat, position.toNat⟩
  | breakpoint _ => .breakpoint
  | identifier _ => .identifier
  | registers position table => .registers ⟨position.toNat, namesOf [] table.entries⟩

end StoredRecord

section Records

variable {size position : Nat} {bytes : Bytes} {record : Record}

theorem readRecord_script_iff :
    readRecord position 0 bytes = .ok (record, rest) ↔
      ∃ module bitmap name text, (StoredRecord.script module bitmap name text).record = record ∧
        bytes = (StoredRecord.script module bitmap name text).payload ++ rest := by
  simp only [readRecord, reads_readNumber.bind_eq_ok_iff, reads_readText.bind_eq_ok_iff,
    StoredRecord.payload, append_assoc]
  constructor
  · rintro ⟨module, _, rfl, bitmap, _, rfl, name, _, rfl, text, _, rfl, hrecord⟩
    cases hrecord
    exact ⟨module, bitmap, name, text, rfl, rfl⟩
  · rintro ⟨module, bitmap, name, text, rfl, rfl⟩
    exact ⟨module, _, rfl, bitmap, _, rfl, name, _, rfl, text, _, rfl, rfl⟩

theorem readRecord_offset_iff :
    readRecord position 1 bytes = .ok (record, rest) ↔
      ∃ module line offset, (StoredRecord.offset module line offset).record = record ∧
        bytes = (StoredRecord.offset module line offset).payload ++ rest := by
  simp only [readRecord, reads_readNumber.bind_eq_ok_iff, StoredRecord.payload, append_assoc]
  constructor
  · rintro ⟨module, _, rfl, line, _, rfl, offset, _, rfl, hrecord⟩
    cases hrecord
    exact ⟨module, line, offset, rfl, rfl⟩
  · rintro ⟨module, line, offset, rfl, rfl⟩
    exact ⟨module, _, rfl, line, _, rfl, offset, _, rfl, rfl⟩

theorem readRecord_registers_iff :
    readRecord position 5 bytes = .ok (record, rest) ↔
      ∃ offset table, (StoredRecord.registers offset table).record = record ∧
        bytes = (StoredRecord.registers offset table).payload ++ rest := by
  simp only [readRecord, reads_readNumber.bind_eq_ok_iff, reads_readByte.bind_eq_ok_iff,
    StoredRecord.payload, RegisterTable.bytes, append_assoc]
  constructor
  · rintro ⟨offset, _, rfl, count, _, rfl, hrecord⟩
    obtain ⟨⟨names, _⟩, hnames, hreturn⟩ := exists_of_bind_eq_ok hrecord
    obtain ⟨entries, hlength, rfl, rfl⟩ := readRegisters_eq_ok_iff.1 hnames
    cases hreturn
    have hlt : entries.length < 256 := hlength ▸ count.toNat_lt
    have hcount : UInt8.ofNat entries.length = count := by rw [hlength, UInt8.ofNat_toNat]
    exact ⟨offset, ⟨entries, hlt⟩, rfl, by simp [hcount]⟩
  · rintro ⟨offset, table, rfl, rfl⟩
    have hcount : (UInt8.ofNat table.entries.length).toNat = table.entries.length :=
      Text.toNat_ofNat_of_lt table.length_lt
    refine ⟨offset, _, rfl, UInt8.ofNat table.entries.length,
      table.entries.flatMap entryBytes ++ rest, rfl, ?_⟩
    rw [readRegisters_eq_ok_iff.2 ⟨table.entries, hcount.symm, rfl, rfl⟩]
    rfl

/-! ### Records with their tags -/

/-- How a record may end too early unnoticed: what is skipped need not be there. -/
inductive IsCut : Record → Bytes → Prop
  | breakpoint (part : Bytes) (h : part.length < 4) : IsCut .breakpoint (numberBytes 2 ++ part)
  | identifier (part : Bytes) (h : part.length < 16) : IsCut .identifier (numberBytes 3 ++ part)

def readTagged (size : Nat) (bytes : Bytes) : Except Fault (Record × Bytes) := do
  let (tag, bytes) ← readNumber bytes
  readRecord (size - bytes.length) tag bytes

theorem readTagged_append (size : Nat) (tag : UInt32) (rest : Bytes) :
    readTagged size (numberBytes tag ++ rest) =
      readRecord (size - rest.length) tag.toNat rest := by
  rw [readTagged, reads_readNumber.read_append]
  rfl

/-- A record is read back. -/
theorem readTagged_bytes (size : Nat) (stored : StoredRecord) (rest : Bytes) :
    readTagged size (stored.bytes ++ rest) = .ok (stored.record, rest) := by
  rw [StoredRecord.bytes, append_assoc, readTagged_append]
  cases stored with
  | script module bitmap name text =>
    exact readRecord_script_iff.2 ⟨module, bitmap, name, text, rfl, rfl⟩
  | offset module line offset => exact readRecord_offset_iff.2 ⟨module, line, offset, rfl, rfl⟩
  | breakpoint payload =>
    exact congrArg (fun later => Except.ok (Record.breakpoint, later))
      (drop_left' payload.length_toList)
  | identifier payload =>
    exact congrArg (fun later => Except.ok (Record.identifier, later))
      (drop_left' payload.length_toList)
  | registers offset table => exact readRecord_registers_iff.2 ⟨offset, table, rfl, rfl⟩

theorem readTagged_of_isCut (h : IsCut record bytes) : readTagged size bytes = .ok (record, []) := by
  cases h with
  | breakpoint part hpart =>
    rw [readTagged_append]
    exact congrArg (fun later => Except.ok (Record.breakpoint, later))
      (drop_eq_nil_of_le (Nat.le_of_lt hpart))
  | identifier part hpart =>
    rw [readTagged_append]
    exact congrArg (fun later => Except.ok (Record.identifier, later))
      (drop_eq_nil_of_le (Nat.le_of_lt hpart))

theorem of_readRecord {tag : UInt32} (h : readRecord position tag.toNat bytes = .ok (record, rest)) :
    (∃ stored : StoredRecord, stored.record = record ∧ stored.tag = tag ∧
      bytes = stored.payload ++ rest) ∨ IsCut record (numberBytes tag ++ bytes) ∧ rest = [] := by
  have htag {n : UInt32} (hn : tag.toNat = n.toNat) : tag = n := UInt32.toNat_inj.1 hn
  generalize hn : tag.toNat = n at h
  match n, hn, h with
  | 0, hn, h =>
    cases htag (n := 0) hn
    obtain ⟨module, bitmap, name, text, rfl, rfl⟩ := readRecord_script_iff.1 h
    exact .inl ⟨.script module bitmap name text, rfl, rfl, rfl⟩
  | 1, hn, h =>
    cases htag (n := 1) hn
    obtain ⟨module, line, offset, rfl, rfl⟩ := readRecord_offset_iff.1 h
    exact .inl ⟨.offset module line offset, rfl, rfl, rfl⟩
  | 2, hn, h =>
    cases htag (n := 2) hn
    cases h
    rcases skip_cases 4 bytes with ⟨payload, hpayload⟩ | ⟨hshort, hrest⟩
    · exact .inl ⟨.breakpoint payload, rfl, rfl, hpayload⟩
    · exact .inr ⟨.breakpoint bytes hshort, hrest⟩
  | 3, hn, h =>
    cases htag (n := 3) hn
    cases h
    rcases skip_cases 16 bytes with ⟨payload, hpayload⟩ | ⟨hshort, hrest⟩
    · exact .inl ⟨.identifier payload, rfl, rfl, hpayload⟩
    · exact .inr ⟨.identifier bytes hshort, hrest⟩
  | 5, hn, h =>
    cases htag (n := 5) hn
    obtain ⟨offset, table, rfl, rfl⟩ := readRecord_registers_iff.1 h
    exact .inl ⟨.registers offset table, rfl, rfl, rfl⟩
  | 4, _, h => cases h
  | _ + 6, _, h => cases h

/-- What is read was a record or a cut one. -/
theorem of_readTagged (h : readTagged size bytes = .ok (record, rest)) :
    (∃ stored : StoredRecord, stored.record = record ∧ bytes = stored.bytes ++ rest) ∨
      IsCut record bytes ∧ rest = [] := by
  obtain ⟨tag, later, rfl, hrecord⟩ := reads_readNumber.bind_eq_ok_iff.1 h
  rcases of_readRecord hrecord with ⟨stored, hvalue, rfl, rfl⟩ | hcut
  · exact .inl ⟨stored, hvalue, (append_assoc ..).symm⟩
  · exact .inr hcut

/-- Where the records of a file end: behind the last one, or within one that is cut. -/
inductive IsEnding : List Record → Bytes → Prop
  | clean : IsEnding [] []
  | cut {record : Record} {bytes : Bytes} (h : IsCut record bytes) : IsEnding [record] bytes

theorem readRecords_succ (h : bytes ≠ []) :
    readRecords size (fuel + 1) bytes = (do
      let (record, rest) ← readTagged size bytes
      return record :: (← readRecords size fuel rest)) := by
  cases bytes with
  | nil => exact absurd rfl h
  | cons b later =>
    rw [readTagged, bind_assoc]
    rfl

theorem length_numberBytes (n : UInt32) : (numberBytes n).length = 4 :=
  rfl

theorem StoredRecord.four_le_length (stored : StoredRecord) : 4 ≤ stored.bytes.length := by
  rw [StoredRecord.bytes, length_append, length_numberBytes]
  exact Nat.le_add_right 4 _

theorem IsCut.four_le_length (h : IsCut record bytes) : 4 ≤ bytes.length := by
  cases h with
  | breakpoint part hpart | identifier part hpart =>
    rw [length_append, length_numberBytes]
    exact Nat.le_add_right 4 _

/-- Every record takes up bytes. -/
theorem length_lt_of_readTagged (h : readTagged size bytes = .ok (record, rest)) :
    rest.length < bytes.length := by
  rcases of_readTagged h with ⟨stored, -, rfl⟩ | ⟨hcut, rfl⟩
  · have hlength := stored.four_le_length
    rw [length_append]
    omega
  · have hlength := hcut.four_le_length
    rw [length_nil]
    omega

/-- One record less to read: the fuel that is left is still enough. -/
theorem readRecords_of_readTagged (h : readTagged size bytes = .ok (record, rest))
    (hfuel : bytes.length ≤ fuel)
    (hrest : ∀ left, rest.length ≤ left → readRecords size left rest = .ok records) :
    readRecords size fuel bytes = .ok (record :: records) := by
  have hlt := length_lt_of_readTagged h
  obtain ⟨left, rfl⟩ : ∃ left, fuel = left + 1 := ⟨fuel - 1, by omega⟩
  rw [readRecords_succ (ne_nil_of_length_pos (by omega)), h]
  change (readRecords size left rest >>= _) = _
  rw [hrest left (by omega)]
  rfl

theorem readRecords_nil : readRecords size fuel [] = .ok [] := by
  cases fuel <;> rfl

theorem readRecords_of_isEnding (h : IsEnding extra bytes) (hfuel : bytes.length ≤ fuel) :
    readRecords size fuel bytes = .ok extra := by
  cases h with
  | clean => exact readRecords_nil
  | cut hcut =>
    exact readRecords_of_readTagged (readTagged_of_isCut hcut) hfuel fun _ _ => readRecords_nil

/-- Records are read back in order. -/
theorem readRecords_append (stored : List StoredRecord) (h : IsEnding extra rest)
    (hfuel : (stored.flatMap StoredRecord.bytes ++ rest).length ≤ fuel) :
    readRecords size fuel (stored.flatMap StoredRecord.bytes ++ rest) =
      .ok (stored.map StoredRecord.record ++ extra) := by
  induction stored generalizing fuel with
  | nil => exact readRecords_of_isEnding h hfuel
  | cons first later ih =>
    rw [flatMap_cons, append_assoc] at hfuel ⊢
    exact readRecords_of_readTagged (readTagged_bytes size first _) hfuel fun left hleft => ih hleft

/-- Only records and an ending are read. -/
theorem exists_of_readRecords (hfuel : bytes.length ≤ fuel)
    (h : readRecords size fuel bytes = .ok records) :
    ∃ (stored : List StoredRecord) (extra : List Record) (rest : Bytes),
      records = stored.map StoredRecord.record ++ extra ∧
        bytes = stored.flatMap StoredRecord.bytes ++ rest ∧ IsEnding extra rest := by
  induction fuel generalizing bytes records with
  | zero =>
    cases eq_nil_of_length_eq_zero (Nat.le_zero.1 hfuel)
    cases h
    exact ⟨[], [], [], rfl, rfl, .clean⟩
  | succ fuel ih =>
    by_cases hbytes : bytes = []
    · cases hbytes
      cases h
      exact ⟨[], [], [], rfl, rfl, .clean⟩
    rw [readRecords_succ hbytes] at h
    obtain ⟨⟨record, rest⟩, hrecord, h⟩ := exists_of_bind_eq_ok h
    obtain ⟨later, hlater, h⟩ := exists_of_bind_eq_ok h
    cases h
    rcases of_readTagged hrecord with ⟨first, rfl, hfirst⟩ | ⟨hcut, rfl⟩
    · have hlt := length_lt_of_readTagged hrecord
      obtain ⟨stored, extra, final, rfl, hrest, hending⟩ := ih (by omega) hlater
      refine ⟨first :: stored, extra, final, rfl, ?_, hending⟩
      rw [flatMap_cons, append_assoc, ← hrest, hfirst]
    · cases readRecords_nil.symm.trans hlater
      exact ⟨[], [record], bytes, rfl, rfl, .cut hcut⟩

end Records

/-! ### Files -/

/-- A cut record adds nothing. -/
theorem ofRecords_append (h : IsEnding extra rest) :
    DebugFile.ofRecords (records ++ extra) = .ofRecords records := by
  cases h with
  | clean => rw [append_nil]
  | cut hcut => cases hcut <;> simp [DebugFile.ofRecords]

theorem parse_signature_append {version : UInt8} (body : Bytes)
    (hversion : oldestVersion ≤ version.toNat) :
    DebugFile.parse (signature ++ version :: body) =
      DebugFile.ofRecords <$>
        readRecords (signature ++ version :: body).length body.length body := by
  have htake : ¬(signature ++ version :: body).take 3 ≠ signature := not_not.2 rfl
  have hread : readByte ((signature ++ version :: body).drop 3) = .ok (version.toNat, body) := rfl
  rw [DebugFile.parse, if_neg htake, hread]
  exact if_neg (Nat.not_lt.2 hversion)

theorem exists_of_parse {bytes : Bytes} (h : DebugFile.parse bytes = .ok file) :
    ∃ (version : UInt8) (body : Bytes), bytes = signature ++ version :: body ∧
      oldestVersion ≤ version.toNat := by
  rw [DebugFile.parse] at h
  by_cases hsignature : bytes.take 3 ≠ signature
  · rw [if_pos hsignature] at h
    cases h
  rw [if_neg hsignature] at h
  obtain ⟨version, body, hbody, h⟩ := reads_readByte.bind_eq_ok_iff.1 h
  refine ⟨version, body, ?_, Nat.not_lt.1 fun hlt => ?_⟩
  · calc bytes
      _ = bytes.take 3 ++ bytes.drop 3 := (take_append_drop 3 bytes).symm
      _ = signature ++ version :: body := by rw [not_not.1 hsignature, hbody, singleton_append]
  · change ite (version.toNat < oldestVersion) _ _ = _ at h
    rw [if_pos hlt] at h
    cases h

/-- A file gives the records that are whole, and a cut one at its end is not noticed. -/
theorem parse_eq_ok_iff {bytes : Bytes} :
    DebugFile.parse bytes = .ok file ↔
      ∃ (version : UInt8) (stored : List StoredRecord) (extra : List Record) (rest : Bytes),
        oldestVersion ≤ version.toNat ∧ bytes = fileBytes version stored ++ rest ∧
          IsEnding extra rest ∧ file = .ofRecords (stored.map StoredRecord.record) := by
  constructor
  · intro h
    obtain ⟨version, body, rfl, hversion⟩ := exists_of_parse h
    rw [parse_signature_append body hversion] at h
    obtain ⟨records, hrecords, h⟩ := exists_of_bind_eq_ok h
    cases h
    obtain ⟨stored, extra, rest, rfl, rfl, hending⟩ :=
      exists_of_readRecords (Nat.le_refl _) hrecords
    refine ⟨version, stored, extra, rest, hversion, ?_, hending, ofRecords_append hending⟩
    simp [fileBytes]
  · rintro ⟨version, stored, extra, rest, hversion, rfl, hending, rfl⟩
    rw [fileBytes, append_assoc, cons_append, parse_signature_append _ hversion,
      readRecords_append stored hending (Nat.le_refl _), ← ofRecords_append hending]
    rfl

/-- The file of records without a register twice has their values, in their order. -/
theorem parse_fileBytes {version : UInt8} {records : List StoredRecord}
    (hversion : oldestVersion ≤ version.toNat)
    (hdistinct : ∀ record ∈ records, record.DistinctIndices) :
    DebugFile.parse (fileBytes version records) = .ok {
      scripts := records.filterMap StoredRecord.script?
      offsets := records.filterMap StoredRecord.offset?
      registers := records.filterMap StoredRecord.registers? } := by
  rw [← List.append_nil (fileBytes version records)]
  refine parse_eq_ok_iff.2 ⟨version, records, [], [], hversion, rfl, .clean, ?_⟩
  simp only [DebugFile.ofRecords, List.filterMap_map, DebugFile.mk.injEq]
  refine ⟨List.filterMap_congr ?_, List.filterMap_congr ?_, List.filterMap_congr ?_⟩
  · intro record _
    cases record <;> rfl
  · intro record _
    cases record <;> rfl
  · intro record hrecord
    cases record with
    | registers position table =>
      exact congrArg (fun names => some (RegistersRecord.mk position.toNat names))
        (table.namesOf_entries (hdistinct _ hrecord)).symm
    | _ => rfl

/-- One record of each kind, the skipped ones between the others. -/
def mixedRecords : List StoredRecord :=
  [.registers 300 ⟨[(3, ⟨"é", by decide⟩), (1, ⟨"this", by decide⟩)], by decide⟩,
    .breakpoint #v[1, 0, 2, 0],
    .script 1 0xFFFFFFFF ⟨"main:/a", by decide⟩ ⟨"", by decide⟩,
    .identifier (Vector.replicate 16 0),
    .offset 1 2 65536]

theorem parse_mixedRecords :
    (oldestVersion ≤ UInt8.toNat 7 ∧ ∀ record ∈ mixedRecords, record.DistinctIndices) ∧
      DebugFile.parse (fileBytes 7 mixedRecords) = .ok {
        scripts := [⟨1, 4294967295, "main:/a", ""⟩]
        offsets := [⟨1, 2, 65536⟩]
        registers := [⟨300, [(3, "é"), (1, "this")]⟩] } := by
  have hversion : oldestVersion ≤ UInt8.toNat 7 := by decide
  have hdistinct : ∀ record ∈ mixedRecords, record.DistinctIndices := by
    simp [mixedRecords, StoredRecord.DistinctIndices]
  exact ⟨⟨hversion, hdistinct⟩, parse_fileBytes hversion hdistinct⟩

end MovieDiff.DebugInfo
