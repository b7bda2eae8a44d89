import MovieDiff.Proofs.DebugInfo.Format

/-!
Which files are accepted. No record's bytes begin another's, so a file can be split into records in
one way only. A file is accepted when it is complete, and also when its last record is one that is
skipped and ends early; a record of any other kind must be there as a whole.
-/
namespace MovieDiff.DebugInfo

open List

variable {part : Bytes} {cut : Record} {records : List StoredRecord} {version : UInt8}

def IsComplete (bytes : Bytes) : Prop :=
  ∃ (version : UInt8) (records : List StoredRecord),
    oldestVersion ≤ version.toNat ∧ bytes = fileBytes version records

/-- Header and whole records, then one without some of the bytes to skip. -/
def EndsCut (bytes : Bytes) : Prop :=
  ∃ (version : UInt8) (records : List StoredRecord) (cut : Record) (tail : Bytes),
    oldestVersion ≤ version.toNat ∧ bytes = fileBytes version records ++ tail ∧ IsCut cut tail

def StoredRecord.IsSkipped : StoredRecord → Prop
  | breakpoint _ | identifier _ => True
  | _ => False

/-! ### One way to split -/

variable {x y : Bytes}

theorem numberBytes_append_inj {a b : UInt32} (h : numberBytes a ++ x = numberBytes b ++ y) :
    a = b ∧ x = y := by
  have hread := reads_readNumber.read_append a x
  rw [h, reads_readNumber.read_append] at hread
  simp only [Except.ok.injEq, Prod.mk.injEq, UInt32.toNat_inj] at hread
  exact ⟨hread.1.symm, hread.2.symm⟩

/-- Where a record ends is told by its bytes. -/
theorem StoredRecord.rest_eq {a b : StoredRecord} (h : a.bytes ++ x = b.bytes ++ y) : x = y := by
  have hread := readTagged_bytes 0 a x
  rw [h, readTagged_bytes] at hread
  simp only [Except.ok.injEq, Prod.mk.injEq] at hread
  exact hread.2.symm

variable {stored : StoredRecord} {rest : Bytes}

theorem tag_payload_of_append {tag : UInt32} (h : stored.bytes ++ rest = numberBytes tag ++ part) :
    stored.tag = tag ∧ stored.payload ++ rest = part := by
  rw [StoredRecord.bytes, append_assoc] at h
  exact numberBytes_append_inj h

/-- A whole record is no cut one. -/
theorem not_isCut_append : ¬IsCut cut (stored.bytes ++ rest) := by
  generalize hbytes : stored.bytes ++ rest = bytes
  intro h
  cases h with
  | breakpoint part hpart =>
    obtain ⟨htag, rfl⟩ := tag_payload_of_append hbytes
    cases stored with
    | breakpoint payload =>
      rw [length_append, StoredRecord.payload, Vector.length_toList] at hpart
      omega
    | _ => cases htag
  | identifier part hpart =>
    obtain ⟨htag, rfl⟩ := tag_payload_of_append hbytes
    cases stored with
    | identifier payload =>
      rw [length_append, StoredRecord.payload, Vector.length_toList] at hpart
      omega
    | _ => cases htag

variable {extra : List Record}

theorem not_isEnding_append : ¬IsEnding extra (stored.bytes ++ rest) := by
  generalize hbytes : stored.bytes ++ rest = bytes
  intro h
  cases h with
  | clean =>
    have hlength := stored.four_le_length
    rw [(append_eq_nil_iff.1 hbytes).1] at hlength
    cases hlength
  | cut hcut => exact not_isCut_append (hbytes ▸ hcut)

/-- Records in front of a part are read first, whatever the bytes end in. -/
theorem exists_later_of_append {stored : List StoredRecord} (hending : IsEnding extra rest)
    (h : records.flatMap StoredRecord.bytes ++ part = stored.flatMap StoredRecord.bytes ++ rest) :
    ∃ later : List StoredRecord, part = later.flatMap StoredRecord.bytes ++ rest := by
  induction records generalizing stored with
  | nil => exact ⟨stored, h⟩
  | cons record records ih =>
    rw [flatMap_cons, append_assoc] at h
    cases stored with
    | nil =>
      rw [flatMap_nil, nil_append] at h
      exact absurd (h ▸ hending) not_isEnding_append
    | cons first stored =>
      rw [flatMap_cons, append_assoc] at h
      exact ih (StoredRecord.rest_eq h)

theorem body_eq_of_fileBytes {version' : UInt8} {records' : List StoredRecord}
    (h : fileBytes version records ++ part = fileBytes version' records' ++ rest) :
    records.flatMap StoredRecord.bytes ++ part = records'.flatMap StoredRecord.bytes ++ rest := by
  simp only [fileBytes, append_assoc, append_cancel_left_eq, cons_append,
    List.cons.injEq] at h
  exact h.2

variable {bytes : Bytes}

theorem not_isComplete_of_endsCut (h : EndsCut bytes) : ¬IsComplete bytes := by
  rintro ⟨version', records', -, hcomplete⟩
  obtain ⟨version, records, cut, tail, -, rfl, hcut⟩ := h
  rw [← append_nil (fileBytes version' records')] at hcomplete
  obtain ⟨later, hlater⟩ := exists_later_of_append .clean (body_eq_of_fileBytes hcomplete)
  cases later with
  | nil =>
    have hlength := hcut.four_le_length
    rw [hlater] at hlength
    cases hlength
  | cons first later =>
    rw [append_nil, flatMap_cons] at hlater
    exact not_isCut_append (hlater ▸ hcut)

/-! ### Cutting a file -/

section Cutting

variable {last : StoredRecord}
  {missing : Bytes}

/-- Only skipped records end too early unnoticed. -/
theorem isSkipped_of_isCut (hlast : last.bytes = part ++ missing)
    (hcut : IsCut cut part) : last.IsSkipped := by
  rw [← append_nil last.bytes] at hlast
  cases hcut with
  | breakpoint part hpart | identifier part hpart =>
    rw [append_assoc] at hlast
    have htag := (tag_payload_of_append hlast).1
    cases last with
    | breakpoint payload | identifier payload => trivial
    | _ => cases htag

theorem exists_isCut_of_isSkipped (hlast : last.bytes = part ++ missing) (hmissing : missing ≠ [])
    (hskipped : last.IsSkipped) (hlength : 4 ≤ part.length) : ∃ cut, IsCut cut part := by
  have hpart : part = numberBytes last.tag ++ part.drop 4 := by
    have htake := congrArg (List.take 4) hlast
    rw [take_append_of_le_length hlength] at htake
    exact (htake ▸ take_append_drop 4 part).symm
  have hmissing := length_pos_of_ne_nil hmissing
  have htotal := congrArg List.length hlast
  simp only [StoredRecord.bytes, length_append, length_numberBytes] at htotal
  cases last with
  | breakpoint payload =>
    refine ⟨.breakpoint, hpart ▸ .breakpoint (part.drop 4) ?_⟩
    simp only [StoredRecord.payload, Vector.length_toList] at htotal
    rw [length_drop]
    omega
  | identifier payload =>
    refine ⟨.identifier, hpart ▸ .identifier (part.drop 4) ?_⟩
    simp only [StoredRecord.payload, Vector.length_toList] at htotal
    rw [length_drop]
    omega
  | _ => exact hskipped.elim

theorem isCut_of_parse_part {file : DebugFile} (hlast : last.bytes = part ++ missing)
    (hpart : part ≠ []) (hmissing : missing ≠ [])
    (h : DebugFile.parse (fileBytes version records ++ part) = .ok file) :
    ∃ cut, IsCut cut part := by
  obtain ⟨version', stored, extra, rest, -, hbytes, hending, -⟩ := parse_eq_ok_iff.1 h
  obtain ⟨later, rfl⟩ := exists_later_of_append hending (body_eq_of_fileBytes hbytes)
  cases later with
  | nil =>
    cases hending with
    | clean => exact absurd rfl hpart
    | cut hcut => exact ⟨_, hcut⟩
  | cons first later =>
    -- A whole record in the part would be the last one, and nothing would be missing.
    rw [← append_nil last.bytes, flatMap_cons, append_assoc, append_assoc]
      at hlast
    have hnil := StoredRecord.rest_eq hlast
    simp only [nil_eq, append_eq_nil_iff] at hnil
    exact absurd hnil.2.2 hmissing

theorem parse_part_eq_ok_iff (hversion : oldestVersion ≤ version.toNat)
    (hlast : last.bytes = part ++ missing) (hpart : part ≠ []) (hmissing : missing ≠ []) :
    (∃ file, DebugFile.parse (fileBytes version records ++ part) = .ok file) ↔
      last.IsSkipped ∧ 4 ≤ part.length := by
  constructor
  · rintro ⟨file, hfile⟩
    obtain ⟨cut, hcut⟩ := isCut_of_parse_part hlast hpart hmissing hfile
    exact ⟨isSkipped_of_isCut hlast hcut, hcut.four_le_length⟩
  · rintro ⟨hskipped, hlength⟩
    obtain ⟨cut, hcut⟩ := exists_isCut_of_isSkipped hlast hmissing hskipped hlength
    exact ⟨_, parse_eq_ok_iff.2 ⟨version, records, [cut], part, hversion, rfl, .cut hcut, rfl⟩⟩

end Cutting

/-- What is accepted: complete files and some cut ones. -/
theorem exists_parse_eq_ok_iff :
    (∃ file, DebugFile.parse bytes = .ok file) ↔ IsComplete bytes ∨ EndsCut bytes := by
  constructor
  · rintro ⟨file, hfile⟩
    obtain ⟨version, stored, extra, rest, hversion, rfl, hending, -⟩ := parse_eq_ok_iff.1 hfile
    cases hending with
    | clean => exact .inl ⟨version, stored, hversion, append_nil _⟩
    | cut hcut => exact .inr ⟨version, stored, _, rest, hversion, rfl, hcut⟩
  · rintro (⟨version, records, hversion, rfl⟩ | ⟨version, records, cut, tail, hversion, rfl, hcut⟩)
    · rw [← append_nil (fileBytes version records)]
      exact ⟨_, parse_eq_ok_iff.2 ⟨version, records, [], [], hversion, rfl, .clean, rfl⟩⟩
    · exact ⟨_, parse_eq_ok_iff.2 ⟨version, records, [cut], tail, hversion, rfl, .cut hcut, rfl⟩⟩

/-- Accepted files are complete, unless they end in a record that is skipped and cut; of the
records that a file may end in, only those are accepted without their last bytes, and only behind
their tag. -/
theorem parse_accepts_iff (bytes : Bytes) :
    ((∃ file, DebugFile.parse bytes = .ok file) ↔ IsComplete bytes ∨ EndsCut bytes) ∧
    (((∃ file, DebugFile.parse bytes = .ok file) → IsComplete bytes) ↔ ¬EndsCut bytes) ∧
    ∀ (version : UInt8) (records : List StoredRecord) (last : StoredRecord) (part missing : Bytes),
      oldestVersion ≤ version.toNat → bytes = fileBytes version records ++ part →
      last.bytes = part ++ missing → part ≠ [] → missing ≠ [] →
      ((∃ fault, DebugFile.parse bytes = .error fault) ↔ ¬(last.IsSkipped ∧ 4 ≤ part.length)) := by
  refine ⟨exists_parse_eq_ok_iff, ?_, ?_⟩
  · rw [exists_parse_eq_ok_iff]
    constructor
    · intro hcomplete hcut
      exact not_isComplete_of_endsCut hcut (hcomplete (.inr hcut))
    · intro hcut haccepted
      exact haccepted.resolve_right hcut
  · intro version records last part missing hversion hbytes hlast hpart hmissing
    rw [← parse_part_eq_ok_iff hversion hlast hpart hmissing, ← hbytes]
    cases DebugFile.parse bytes with
    | error fault => simp
    | ok file => simp

/-- An identifier without its last bytes is accepted, an offset without its last byte is not. -/
theorem parse_accepts_cutIdentifier :
    (∃ file, DebugFile.parse (fileBytes 6 [] ++ [3, 0, 0, 0, 9, 9]) = .ok file) ∧
      ∃ fault, DebugFile.parse (fileBytes 6 [.breakpoint #v[0, 0, 0, 0]] ++
        [1, 0, 0, 0, 1, 0, 0, 0, 2, 0, 0, 0, 3, 0, 0]) = .error fault := by
  have hcut : IsCut .identifier [3, 0, 0, 0, 9, 9] := .identifier [9, 9] (by decide)
  have hends : EndsCut (fileBytes 6 [] ++ [3, 0, 0, 0, 9, 9]) :=
    ⟨6, [], _, _, by decide, rfl, hcut⟩
  refine ⟨(parse_accepts_iff _).1.2 (.inr hends), ?_⟩
  refine ((parse_accepts_iff _).2.2 6 _ (.offset 1 2 3) _ [0] (by decide) rfl rfl ?_ ?_).2 ?_
  · exact List.cons_ne_nil _ _
  · exact List.cons_ne_nil _ _
  · exact fun h => h.1

/-- The tag of a breakpoint without the breakpoint. -/
theorem parse_cutBreakpoint :
    DebugFile.parse [0x46, 0x57, 0x44, 6, 2, 0, 0, 0] = .ok ⟨[], [], []⟩ ∧
      ¬IsComplete [0x46, 0x57, 0x44, 6, 2, 0, 0, 0] := by
  refine ⟨rfl, not_isComplete_of_endsCut ⟨6, [], .breakpoint, [2, 0, 0, 0], by decide, rfl, ?_⟩⟩
  exact .breakpoint [] (by decide)

end MovieDiff.DebugInfo
