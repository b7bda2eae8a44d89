import Mathlib.Data.List.Basic
import MovieDiff.Text.Utf8

/-!
Text comes back from its bytes: what is encoded is decoded without a hole, by the lenient reader
and by the strict one. The strict reader accepts nothing else: bytes that it takes for a text are
those of the text.
-/
namespace MovieDiff.Text

open List
open String (utf8EncodeChar)

variable {n low high bits needed v : Nat} {p : PartialChar} {cs : List Char} {b : UInt8}
  {bytes : List UInt8} (s : String) {c : Char}

theorem toNat_ofNat_of_lt (h : n < 256) : (UInt8.ofNat n).toNat = n := by
  simp [UInt8.toNat_ofNat', Nat.mod_eq_of_lt h]

/-! ### One byte -/

theorem decodeFrom_whole (h : leadByte b = .whole c) (rest : List UInt8) :
    decodeFrom none (b :: rest) = some c :: decodeFrom none rest := by
  simp [decodeFrom, decodeByte, decodeLead, h]

theorem decodeFrom_opens (h : leadByte b = .opens p) (rest : List UInt8) :
    decodeFrom none (b :: rest) = decodeFrom (some p) rest := by
  simp [decodeFrom, decodeByte, decodeLead, h]

/-- A byte within the bounds adds its six bits and leaves one byte fewer to come. -/
theorem decodeFrom_inner (hn : n < 256) (hlow : low ≤ n) (hhigh : n ≤ high) (rest : List UInt8) :
    decodeFrom (some ⟨needed + 2, low, high, bits⟩) (UInt8.ofNat n :: rest) =
      decodeFrom (some ⟨needed + 1, 0x80, 0xBF, bits * 64 + (n - 0x80)⟩) rest := by
  simp [decodeFrom, decodeByte, toNat_ofNat_of_lt hn, hlow, hhigh]

theorem decodeFrom_last (hn : n < 256) (hlow : low ≤ n) (hhigh : n ≤ high) (rest : List UInt8) :
    decodeFrom (some ⟨1, low, high, bits⟩) (UInt8.ofNat n :: rest) =
      some (Char.ofNat (bits * 64 + (n - 0x80))) :: decodeFrom none rest := by
  simp [decodeFrom, decodeByte, toNat_ofNat_of_lt hn, hlow, hhigh]

/-! ### The first byte of a character -/

theorem leadByte_one (h : b.toNat = n) (hhigh : n < 0x80) : leadByte b = .whole (Char.ofNat n) := by
  rw [leadByte, h, if_pos hhigh]

theorem leadByte_two (h : b.toNat = n) (hlow : 0xC2 ≤ n) (hhigh : n < 0xE0) :
    leadByte b = .opens ⟨1, 0x80, 0xBF, n - 0xC0⟩ := by
  rw [leadByte, h, if_neg (by omega), if_neg (by omega), if_pos hhigh]

/-- Of three bytes the first bounds the second: no shorter form, no surrogate. -/
theorem leadByte_three (h : b.toNat = n) (hlow : 0xE0 ≤ n) (hhigh : n < 0xF0) :
    ∃ low high, leadByte b = .opens ⟨2, low, high, n - 0xE0⟩ ∧
      (n = 0xE0 ∧ low = 0xA0 ∨ n ≠ 0xE0 ∧ low = 0x80) ∧
      (n = 0xED ∧ high = 0x9F ∨ n ≠ 0xED ∧ high = 0xBF) := by
  rw [leadByte, h, if_neg (by omega), if_neg (by omega), if_neg (by omega)]
  by_cases hfirst : n = 0xE0
  · exact ⟨0xA0, 0xBF, by rw [if_pos hfirst, hfirst], by omega⟩
  rw [if_neg hfirst]
  by_cases hsurrogate : n = 0xED
  · exact ⟨0x80, 0x9F, by rw [if_pos hsurrogate, hsurrogate], by omega⟩
  · exact ⟨0x80, 0xBF, by rw [if_neg hsurrogate, if_pos hhigh], by omega⟩

/-- Of four bytes the first bounds the second: no shorter form, nothing beyond the last plane. -/
theorem leadByte_four (h : b.toNat = n) (hlow : 0xF0 ≤ n) (hhigh : n < 0xF5) :
    ∃ low high, leadByte b = .opens ⟨3, low, high, n - 0xF0⟩ ∧
      (n = 0xF0 ∧ low = 0x90 ∨ n ≠ 0xF0 ∧ low = 0x80) ∧
      (n = 0xF4 ∧ high = 0x8F ∨ n ≠ 0xF4 ∧ high = 0xBF) := by
  rw [leadByte, h, if_neg (by omega), if_neg (by omega), if_neg (by omega), if_neg (by omega),
    if_neg (by omega), if_neg (by omega)]
  by_cases hfirst : n = 0xF0
  · exact ⟨0x90, 0xBF, by rw [if_pos hfirst, hfirst], by omega⟩
  rw [if_neg hfirst]
  by_cases hlast : n = 0xF4
  · exact ⟨0x80, 0x8F, by rw [hlast]; rfl, by omega⟩
  · exact ⟨0x80, 0xBF, if_pos (by omega), by omega⟩

/-! ### Characters and texts -/

theorem decodeFrom_utf8EncodeChar (c : Char) (rest : List UInt8) :
    decodeFrom none (utf8EncodeChar c ++ rest) = some c :: decodeFrom none rest := by
  have hscalar : c.val.toNat < 0xD800 ∨ (0xDFFF < c.val.toNat ∧ c.val.toNat < 0x110000) := c.valid
  have hchar : ∀ n, n = c.val.toNat → Char.ofNat n = c := fun n hn => hn ▸ Char.ofNat_toNat c
  unfold utf8EncodeChar
  -- One case for each number of bytes. Only the second byte has bounds of its own.
  generalize c.val.toNat = v at hscalar hchar
  dsimp only
  split
  next hone =>
    rw [singleton_append, decodeFrom_whole (leadByte_one (toNat_ofNat_of_lt (by omega)) (by omega)),
      hchar v rfl]
  split
  next hone htwo =>
    rw [cons_append, singleton_append,
      decodeFrom_opens (leadByte_two (toNat_ofNat_of_lt (by omega)) (by omega) (by omega)),
      decodeFrom_last (by omega) (by omega) (by omega), hchar _ (by omega)]
  split
  next hone htwo hthree =>
    obtain ⟨low, high, hlead, hbounds⟩ :=
      leadByte_three (@toNat_ofNat_of_lt (v / 4096 % 16 + 0xE0) (by omega)) (by omega) (by omega)
    rw [cons_append, cons_append, singleton_append, decodeFrom_opens hlead,
      decodeFrom_inner (by omega) (by omega) (by omega),
      decodeFrom_last (by omega) (by omega) (by omega), hchar _ (by omega)]
  next hone htwo hthree =>
    obtain ⟨low, high, hlead, hbounds⟩ :=
      leadByte_four (@toNat_ofNat_of_lt (v / 262144 % 8 + 0xF0) (by omega)) (by omega) (by omega)
    rw [cons_append, cons_append, cons_append, singleton_append, decodeFrom_opens hlead,
      decodeFrom_inner (by omega) (by omega) (by omega),
      decodeFrom_inner (by omega) (by omega) (by omega),
      decodeFrom_last (by omega) (by omega) (by omega), hchar _ (by omega)]

/-- Encoded text is decoded again. -/
theorem decodeFrom_encode : decodeFrom none (encode s) = s.toList.map some := by
  unfold encode
  induction s.toList with
  | nil => rfl
  | cons c cs ih => rw [flatMap_cons, decodeFrom_utf8EncodeChar, ih, map_cons]

theorem decodeLenient_encode : decodeLenient (encode s) = s.toList := by
  simp [decodeLenient, decodeFrom_encode, Function.comp_def]

theorem mapM_id_eq_some_iff {α : Type} {xs : List (Option α)} {ys : List α} :
    xs.mapM id = some ys ↔ xs = ys.map some := by
  induction xs generalizing ys with
  | nil => cases ys <;> simp
  | cons x xs ih =>
    cases x with
    | none => cases ys <;> simp
    | some x =>
      cases ys with
      | nil => simp [Option.bind_eq_some_iff]
      | cons y ys => simp [Option.bind_eq_some_iff, ih, and_comm]

theorem decodeStrict_encode : decodeStrict (encode s) = some s.toList := by
  rw [decodeStrict, decodeFrom_encode]
  exact mapM_id_eq_some_iff.2 rfl

/-! ### Bytes that are text -/

theorem decodeFrom_invalid (h : leadByte b = .invalid) (rest : List UInt8) :
    decodeFrom none (b :: rest) = none :: decodeFrom none rest := by
  rw [decodeFrom, decodeByte, decodeLead, h]
  rfl

/-- A byte outside the bounds leaves a hole. -/
theorem exists_decodeFrom_hole (h : ¬ (p.low ≤ b.toNat ∧ b.toNat ≤ p.high))
    (rest : List UInt8) :
    ∃ later, decodeFrom (some p) (b :: rest) = none :: later := by
  have hfails : (decide (p.low ≤ b.toNat) && decide (b.toNat ≤ p.high)) = false := by
    rw [← Bool.decide_and]
    exact decide_eq_false h
  rw [decodeFrom, decodeByte]
  dsimp only
  rw [hfails]
  exact ⟨_, rfl⟩

theorem map_some_ne_none_cons {later : List (Option Char)} : none :: later ≠ cs.map some := by
  cases cs with
  | nil => exact cons_ne_nil _ _
  | cons c cs => exact fun h => Option.some_ne_none c (List.cons.inj h).1.symm

/-- Inside a character the next byte is there and within the bounds, unless there is a hole. -/
theorem exists_of_decodeFrom_some (h : decodeFrom (some p) bytes = cs.map some) :
    ∃ b rest, bytes = b :: rest ∧ p.low ≤ b.toNat ∧ b.toNat ≤ p.high := by
  cases bytes with
  | nil => exact absurd h map_some_ne_none_cons
  | cons b rest =>
    by_cases hbounds : p.low ≤ b.toNat ∧ b.toNat ≤ p.high
    · exact ⟨b, rest, rfl, hbounds⟩
    · obtain ⟨later, hlater⟩ := exists_decodeFrom_hole hbounds rest
      exact absurd (hlater.symm.trans h) map_some_ne_none_cons

theorem exists_of_decodeFrom_inner
    (h : decodeFrom (some ⟨needed + 2, low, high, bits⟩) bytes = cs.map some) :
    ∃ b rest, bytes = b :: rest ∧ low ≤ b.toNat ∧ b.toNat ≤ high ∧
      decodeFrom (some ⟨needed + 1, 0x80, 0xBF, bits * 64 + (b.toNat - 0x80)⟩) rest =
        cs.map some := by
  obtain ⟨b, rest, rfl, hlow, hhigh⟩ := exists_of_decodeFrom_some h
  refine ⟨b, rest, rfl, hlow, hhigh, ?_⟩
  have hb : UInt8.ofNat b.toNat = b := UInt8.ofNat_toNat
  rwa [← hb, decodeFrom_inner b.toNat_lt hlow hhigh] at h

theorem exists_of_decodeFrom_last (h : decodeFrom (some ⟨1, low, high, bits⟩) bytes = cs.map some) :
    ∃ b rest others, bytes = b :: rest ∧ low ≤ b.toNat ∧ b.toNat ≤ high ∧
      cs = Char.ofNat (bits * 64 + (b.toNat - 0x80)) :: others ∧
      decodeFrom none rest = others.map some := by
  obtain ⟨b, rest, rfl, hlow, hhigh⟩ := exists_of_decodeFrom_some h
  have hb : UInt8.ofNat b.toNat = b := UInt8.ofNat_toNat
  rw [← hb, decodeFrom_last b.toNat_lt hlow hhigh] at h
  cases cs with
  | nil => cases h
  | cons c others =>
    simp only [map_cons, List.cons.injEq, Option.some.injEq] at h
    exact ⟨b, rest, others, rfl, hlow, hhigh, by rw [h.1], h.2⟩

theorem leadByte_invalid (h : 0x80 ≤ b.toNat ∧ b.toNat < 0xC2 ∨ 0xF5 ≤ b.toNat) :
    leadByte b = .invalid := by
  rcases h with ⟨hlow, hhigh⟩ | hlow
  · rw [leadByte, if_neg (by omega), if_pos hhigh]
  · simp (disch := omega) only [leadByte, if_neg]

/-! ### The bytes of a character -/

section Bytes

variable (b b₁ b₂ b₃ : UInt8)

theorem toNat_val_ofNat (h : v < 0xD800 ∨ (0xDFFF < v ∧ v < 0x110000)) :
    (Char.ofNat v).val.toNat = v := by
  have hvalid : v.isValidChar := h
  rw [Char.ofNat, dif_pos hvalid]
  rfl

theorem ofNat_eq_of_toNat {b : UInt8} (h : b.toNat = n) : UInt8.ofNat n = b := by
  rw [← h, UInt8.ofNat_toNat]

theorem utf8EncodeChar_one (hv : v ≤ 0x7F) (h : b.toNat = v) :
    utf8EncodeChar (Char.ofNat v) = [b] := by
  rw [utf8EncodeChar, toNat_val_ofNat (by omega), if_pos hv, ofNat_eq_of_toNat h]

theorem utf8EncodeChar_two (hlow : 0x7F < v) (hhigh : v ≤ 0x7FF) (h : b.toNat = v / 64 + 0xC0)
    (h₁ : b₁.toNat = v % 64 + 0x80) : utf8EncodeChar (Char.ofNat v) = [b, b₁] := by
  have hmod : v / 64 % 32 = v / 64 := Nat.mod_eq_of_lt (by omega)
  rw [utf8EncodeChar, toNat_val_ofNat (by omega), if_neg (by omega), if_pos hhigh, hmod,
    ofNat_eq_of_toNat h, ofNat_eq_of_toNat h₁]

theorem utf8EncodeChar_three (hlow : 0x7FF < v) (hhigh : v ≤ 0xFFFF)
    (hscalar : v < 0xD800 ∨ 0xDFFF < v) (h : b.toNat = v / 4096 + 0xE0)
    (h₁ : b₁.toNat = v / 64 % 64 + 0x80) (h₂ : b₂.toNat = v % 64 + 0x80) :
    utf8EncodeChar (Char.ofNat v) = [b, b₁, b₂] := by
  have hmod : v / 4096 % 16 = v / 4096 := Nat.mod_eq_of_lt (by omega)
  rw [utf8EncodeChar, toNat_val_ofNat (by omega), if_neg (by omega), if_neg (by omega),
    if_pos hhigh, hmod, ofNat_eq_of_toNat h, ofNat_eq_of_toNat h₁, ofNat_eq_of_toNat h₂]

theorem utf8EncodeChar_four (hlow : 0xFFFF < v) (hhigh : v < 0x110000)
    (h : b.toNat = v / 262144 + 0xF0) (h₁ : b₁.toNat = v / 4096 % 64 + 0x80)
    (h₂ : b₂.toNat = v / 64 % 64 + 0x80) (h₃ : b₃.toNat = v % 64 + 0x80) :
    utf8EncodeChar (Char.ofNat v) = [b, b₁, b₂, b₃] := by
  have hmod : v / 262144 % 8 = v / 262144 := Nat.mod_eq_of_lt (by omega)
  rw [utf8EncodeChar, toNat_val_ofNat (by omega), if_neg (by omega), if_neg (by omega),
    if_neg (by omega), hmod, ofNat_eq_of_toNat h, ofNat_eq_of_toNat h₁, ofNat_eq_of_toNat h₂,
    ofNat_eq_of_toNat h₃]

end Bytes

/-- Bytes without a hole start with the bytes of a character. -/
theorem exists_of_decodeFrom_none (h : decodeFrom none (b :: bytes) = cs.map some) :
    ∃ c others rest, cs = c :: others ∧ b :: bytes = utf8EncodeChar c ++ rest ∧
      decodeFrom none rest = others.map some := by
  obtain hb | hb | ⟨hlow, hhigh⟩ | ⟨hlow, hhigh⟩ | ⟨hlow, hhigh⟩ : b.toNat < 0x80 ∨
      (0x80 ≤ b.toNat ∧ b.toNat < 0xC2 ∨ 0xF5 ≤ b.toNat) ∨ (0xC2 ≤ b.toNat ∧ b.toNat < 0xE0) ∨
      (0xE0 ≤ b.toNat ∧ b.toNat < 0xF0) ∨ 0xF0 ≤ b.toNat ∧ b.toNat < 0xF5 := by omega
  · rw [decodeFrom_whole (leadByte_one rfl hb)] at h
    cases cs with
    | nil => cases h
    | cons c others =>
      simp only [map_cons, List.cons.injEq, Option.some.injEq] at h
      refine ⟨c, others, bytes, rfl, ?_, h.2⟩
      rw [← h.1, utf8EncodeChar_one b (by omega) rfl, singleton_append]
  · exact absurd ((decodeFrom_invalid (leadByte_invalid hb) bytes).symm.trans h)
      map_some_ne_none_cons
  · rw [decodeFrom_opens (leadByte_two rfl hlow hhigh)] at h
    obtain ⟨b₁, rest, others, rfl, hlow₁, hhigh₁, rfl, hrest⟩ := exists_of_decodeFrom_last h
    refine ⟨_, others, rest, rfl, ?_, hrest⟩
    rw [utf8EncodeChar_two b b₁ (by omega) (by omega) (by omega) (by omega)]
    rfl
  · obtain ⟨low, high, hlead, hbounds⟩ := leadByte_three rfl hlow hhigh
    rw [decodeFrom_opens hlead] at h
    obtain ⟨b₁, rest, rfl, hlow₁, hhigh₁, h⟩ := exists_of_decodeFrom_inner h
    obtain ⟨b₂, rest, others, rfl, hlow₂, hhigh₂, rfl, hrest⟩ := exists_of_decodeFrom_last h
    refine ⟨_, others, rest, rfl, ?_, hrest⟩
    rw [utf8EncodeChar_three b b₁ b₂ (by omega) (by omega) (by omega)
      (by omega) (by omega) (by omega)]
    rfl
  · obtain ⟨low, high, hlead, hbounds⟩ := leadByte_four rfl hlow hhigh
    rw [decodeFrom_opens hlead] at h
    obtain ⟨b₁, rest, rfl, hlow₁, hhigh₁, h⟩ := exists_of_decodeFrom_inner h
    obtain ⟨b₂, rest, rfl, hlow₂, hhigh₂, h⟩ := exists_of_decodeFrom_inner h
    obtain ⟨b₃, rest, others, rfl, hlow₃, hhigh₃, rfl, hrest⟩ := exists_of_decodeFrom_last h
    refine ⟨_, others, rest, rfl, ?_, hrest⟩
    rw [utf8EncodeChar_four b b₁ b₂ b₃ (by omega) (by omega)
      (by omega) (by omega) (by omega) (by omega)]
    rfl

/-- Only encoded text has no holes. -/
theorem eq_flatMap_of_decodeFrom (h : decodeFrom none bytes = cs.map some) :
    bytes = cs.flatMap utf8EncodeChar := by
  induction cs generalizing bytes with
  | nil =>
    cases bytes with
    | nil => rfl
    | cons b bytes =>
      obtain ⟨c, others, rest, hcs, -⟩ := exists_of_decodeFrom_none h
      cases hcs
  | cons c cs ih =>
    cases bytes with
    | nil => cases h
    | cons b bytes =>
      obtain ⟨c', others, rest, hcs, hbytes, hrest⟩ := exists_of_decodeFrom_none h
      cases hcs
      rw [hbytes, ih hrest, flatMap_cons]

/-- The strict reader accepts no bytes but those of the text that it gives. -/
theorem decodeStrict_eq_some_iff :
    decodeStrict bytes = some cs ↔ bytes = encode (String.ofList cs) := by
  constructor
  · intro h
    rw [encode, String.toList_ofList]
    exact eq_flatMap_of_decodeFrom (mapM_id_eq_some_iff.1 h)
  · rintro rfl
    rw [decodeStrict_encode, String.toList_ofList]

/-! ### Zero bytes -/

theorem ofNat_ne_zero (hpos : 0 < n) (hlt : n < 256) : UInt8.ofNat n ≠ 0 := by
  intro heq
  have hnat := congrArg UInt8.toNat heq
  rw [toNat_ofNat_of_lt hlt] at hnat
  exact absurd hnat (Nat.ne_of_gt hpos)

/-- No zero byte inside a text. -/
theorem ne_zero_of_mem_utf8EncodeChar (hc : c.val.toNat ≠ 0) :
    ∀ b ∈ utf8EncodeChar c, b ≠ 0 := by
  unfold utf8EncodeChar
  generalize c.val.toNat = v at hc
  dsimp only
  split
  · exact forall_mem_singleton.2 (ofNat_ne_zero (by omega) (by omega))
  split
  · simp only [forall_mem_cons]
    exact ⟨ofNat_ne_zero (by omega) (by omega), ofNat_ne_zero (by omega) (by omega), by simp⟩
  split
  · simp only [forall_mem_cons]
    exact ⟨ofNat_ne_zero (by omega) (by omega), ofNat_ne_zero (by omega) (by omega),
      ofNat_ne_zero (by omega) (by omega), by simp⟩
  · simp only [forall_mem_cons]
    exact ⟨ofNat_ne_zero (by omega) (by omega), ofNat_ne_zero (by omega) (by omega),
      ofNat_ne_zero (by omega) (by omega), ofNat_ne_zero (by omega) (by omega), by simp⟩

/-- Only the character zero has a zero byte. -/
theorem zero_mem_encode {s : String} : 0 ∈ encode s ↔ '\x00' ∈ s.toList := by
  unfold encode
  rw [mem_flatMap]
  constructor
  · rintro ⟨c, hc, hzero⟩
    have hval : c.val.toNat = 0 := by
      by_contra hne
      exact ne_zero_of_mem_utf8EncodeChar hne 0 hzero rfl
    have heq : c = '\x00' := Char.ext (UInt32.toNat_inj.1 hval)
    exact heq ▸ hc
  · exact fun h => ⟨'\x00', h, by decide⟩

end MovieDiff.Text
