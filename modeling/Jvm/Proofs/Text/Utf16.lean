import Mathlib
import Jvm.Text.Utf16

/-! # Texts and their code units

A text is read back from its units (`decode_encode`), and units from the text they spell as long as every
surrogate among them stands in a pair (`encode_decode`). Other surrogates are replaced, one unit for one
(`forall₂_decode`). -/

namespace Jvm.Text.Utf16

/-- Whether a unit is one half of a surrogate pair. -/
def IsSurrogate (u : UInt16) : Prop := isHighSurrogate u = true ∨ isLowSurrogate u = true

/-- Whether every surrogate of a unit sequence stands in a pair. -/
inductive Paired : List UInt16 → Prop
  | nil : Paired []
  | single {u : UInt16} {us : List UInt16} : ¬ IsSurrogate u → Paired us → Paired (u :: us)
  | pair {high low : UInt16} {us : List UInt16} :
    isHighSurrogate high = true → isLowSurrogate low = true → Paired us → Paired (high :: low :: us)

theorem isHighSurrogate_iff {u : UInt16} :
    isHighSurrogate u = true ↔ 0xD800 ≤ u.toNat ∧ u.toNat ≤ 0xDBFF := by
  simp [isHighSurrogate, UInt16.le_iff_toNat_le]

theorem isLowSurrogate_iff {u : UInt16} :
    isLowSurrogate u = true ↔ 0xDC00 ≤ u.toNat ∧ u.toNat ≤ 0xDFFF := by
  simp [isLowSurrogate, UInt16.le_iff_toNat_le]

theorem isSurrogate_iff {u : UInt16} : IsSurrogate u ↔ 0xD800 ≤ u.toNat ∧ u.toNat ≤ 0xDFFF := by
  rw [IsSurrogate, isHighSurrogate_iff, isLowSurrogate_iff]
  omega

/-! ### Characters and their units -/

theorem unitsOfChar_of_lt {c : Char} (h : c.toNat < 0x10000) :
    unitsOfChar c = [c.toNat.toUInt16] ∧ ¬ IsSurrogate c.toNat.toUInt16 ∧
      charOfUnit c.toNat.toUInt16 = c := by
  have hnat : c.toNat.toUInt16.toNat = c.toNat := by
    rw [Nat.toUInt16_eq, UInt16.toNat_ofNat', Nat.mod_eq_of_lt h]
  have hplain : ¬ IsSurrogate c.toNat.toUInt16 := by
    rw [isSurrogate_iff, hnat]
    have := c.valid
    simp only [UInt32.isValidChar, Nat.isValidChar, Char.toNat] at *
    omega
  refine ⟨if_pos h, hplain, ?_⟩
  rw [IsSurrogate] at hplain
  rw [charOfUnit, if_neg (by simpa using hplain), hnat, Char.ofNat_toNat]

theorem unitsOfChar_of_le {c : Char} (h : 0x10000 ≤ c.toNat) : ∃ high low,
    unitsOfChar c = [high, low] ∧ isHighSurrogate high = true ∧ isLowSurrogate low = true ∧
      charOfPair high low = c := by
  have hmax : c.toNat < 0x110000 := by
    have := c.valid
    simp only [UInt32.isValidChar, Nat.isValidChar, Char.toNat] at *
    omega
  have hhigh : (0xD800 + (c.toNat - 0x10000) / 0x400).toUInt16.toNat =
      0xD800 + (c.toNat - 0x10000) / 0x400 := by
    rw [Nat.toUInt16_eq, UInt16.toNat_ofNat']
    omega
  have hlow : (0xDC00 + (c.toNat - 0x10000) % 0x400).toUInt16.toNat =
      0xDC00 + (c.toNat - 0x10000) % 0x400 := by
    rw [Nat.toUInt16_eq, UInt16.toNat_ofNat']
    omega
  refine ⟨_, _, if_neg (by omega), ?_, ?_, ?_⟩
  · rw [isHighSurrogate_iff, hhigh]
    omega
  · rw [isLowSurrogate_iff, hlow]
    omega
  · have hback : 0x10000 + (0xD800 + (c.toNat - 0x10000) / 0x400 - 0xD800) * 0x400 +
        (0xDC00 + (c.toNat - 0x10000) % 0x400 - 0xDC00) = c.toNat := by omega
    rw [charOfPair, hhigh, hlow, hback, Char.ofNat_toNat]

theorem unitsOfChar_charOfUnit {u : UInt16} (h : ¬ IsSurrogate u) :
    unitsOfChar (charOfUnit u) = [u] := by
  have hvalid : u.toNat.isValidChar := by
    rw [isSurrogate_iff] at h
    have := u.toNat_lt
    simp only [Nat.isValidChar]
    omega
  have hnat : (Char.ofNat u.toNat).toNat = u.toNat := by
    rw [Char.toNat_ofNat, if_pos hvalid]
  rw [IsSurrogate] at h
  rw [charOfUnit, if_neg (by simpa using h), unitsOfChar, hnat, if_pos u.toNat_lt]
  simp

theorem unitsOfChar_charOfPair {high low : UInt16} (hhigh : isHighSurrogate high = true)
    (hlow : isLowSurrogate low = true) : unitsOfChar (charOfPair high low) = [high, low] := by
  rw [isHighSurrogate_iff] at hhigh
  rw [isLowSurrogate_iff] at hlow
  have hvalid : (0x10000 + (high.toNat - 0xD800) * 0x400 + (low.toNat - 0xDC00)).isValidChar := by
    simp only [Nat.isValidChar]
    omega
  have hnat : (charOfPair high low).toNat =
      0x10000 + (high.toNat - 0xD800) * 0x400 + (low.toNat - 0xDC00) := by
    rw [charOfPair, Char.toNat_ofNat, if_pos hvalid]
  have hfirst : 0xD800 + ((charOfPair high low).toNat - 0x10000) / 0x400 = high.toNat := by omega
  have hsecond : 0xDC00 + ((charOfPair high low).toNat - 0x10000) % 0x400 = low.toNat := by omega
  rw [unitsOfChar, if_neg (by omega)]
  dsimp only
  rw [hfirst, hsecond]
  simp

/-! ### Decoding -/

theorem decodeOnto_single {u : UInt16} (h : ¬ IsSurrogate u) (read : List Char) (us : List UInt16) :
    decodeOnto read (u :: us) = decodeOnto (charOfUnit u :: read) us := by
  have hhigh : isHighSurrogate u = false := by
    rw [← Bool.not_eq_true]
    exact fun hu => h (.inl hu)
  cases us with
  | nil => rfl
  | cons v us => simp [decodeOnto, hhigh]

theorem decodeOnto_pair {high low : UInt16} (hhigh : isHighSurrogate high = true)
    (hlow : isLowSurrogate low = true) (read : List Char) (us : List UInt16) :
    decodeOnto read (high :: low :: us) = decodeOnto (charOfPair high low :: read) us := by
  simp [decodeOnto, hhigh, hlow]

theorem decodeOnto_units (cs : List Char) (read : List Char) :
    decodeOnto read (cs.flatMap unitsOfChar) = read.reverse ++ cs := by
  induction cs generalizing read with
  | nil => simp [decodeOnto]
  | cons c cs ih =>
    rw [List.flatMap_cons]
    rcases Nat.lt_or_ge c.toNat 0x10000 with h | h
    · obtain ⟨hunits, hplain, hchar⟩ := unitsOfChar_of_lt h
      rw [hunits, List.singleton_append, decodeOnto_single hplain, hchar, ih]
      simp
    · obtain ⟨high, low, hunits, hhigh, hlow, hchar⟩ := unitsOfChar_of_le h
      rw [hunits]
      change decodeOnto read (high :: low :: cs.flatMap unitsOfChar) = _
      rw [decodeOnto_pair hhigh hlow, hchar, ih]
      simp

/-- A text is read back from its units. -/
theorem decode_encode (s : String) : decode (encode s) = s := by
  rw [decode, encode, decodeOnto_units]
  simp

theorem paired_units (cs : List Char) : Paired (cs.flatMap unitsOfChar) := by
  induction cs with
  | nil => exact .nil
  | cons c cs ih =>
    rw [List.flatMap_cons]
    rcases Nat.lt_or_ge c.toNat 0x10000 with h | h
    · obtain ⟨hunits, hplain, -⟩ := unitsOfChar_of_lt h
      rw [hunits]
      exact .single hplain ih
    · obtain ⟨high, low, hunits, hhigh, hlow, -⟩ := unitsOfChar_of_le h
      rw [hunits]
      exact .pair hhigh hlow ih

theorem paired_encode (s : String) : Paired (encode s) := paired_units s.toList

theorem units_decodeOnto {us : List UInt16} (h : Paired us) (read : List Char) :
    (decodeOnto read us).flatMap unitsOfChar = read.reverse.flatMap unitsOfChar ++ us := by
  induction h generalizing read with
  | nil => simp [decodeOnto]
  | single hu _ ih =>
    rw [decodeOnto_single hu, ih]
    simp [unitsOfChar_charOfUnit hu]
  | pair hhigh hlow _ ih =>
    rw [decodeOnto_pair hhigh hlow, ih]
    simp [unitsOfChar_charOfPair hhigh hlow]

/-- Units without unpaired surrogates are those of the text they spell. -/
theorem encode_decode {us : List UInt16} (h : Paired us) : encode (decode us) = us := by
  rw [encode, decode, String.toList_ofList, units_decodeOnto h]
  rfl

/-- Decoding changes nothing but unpaired surrogates, and leaves the number of units. -/
theorem forall₂_decodeOnto (read : List Char) (us : List UInt16) : ∃ vs,
    (decodeOnto read us).flatMap unitsOfChar = read.reverse.flatMap unitsOfChar ++ vs ∧
      List.Forall₂ (fun u v => v = u ∨ IsSurrogate u ∧ v = 0xFFFD) us vs := by
  have hunit (u : UInt16) : ∃ v, unitsOfChar (charOfUnit u) = [v] ∧
      (v = u ∨ IsSurrogate u ∧ v = 0xFFFD) := by
    by_cases h : IsSurrogate u
    · refine ⟨0xFFFD, ?_, .inr ⟨h, rfl⟩⟩
      rw [charOfUnit, if_pos (by simpa [IsSurrogate] using h)]
      rfl
    · exact ⟨u, unitsOfChar_charOfUnit h, .inl rfl⟩
  fun_induction decodeOnto read us with
  | case1 read => exact ⟨[], by simp, .nil⟩
  | case2 read u =>
    obtain ⟨v, hv, huv⟩ := hunit u
    exact ⟨[v], by simp [hv], .cons huv .nil⟩
  | case3 read u v us h ih =>
    obtain ⟨vs, hvs, hall⟩ := ih
    rw [Bool.and_eq_true] at h
    refine ⟨u :: v :: vs, ?_, .cons (.inl rfl) (.cons (.inl rfl) hall)⟩
    rw [hvs]
    simp [unitsOfChar_charOfPair h.1 h.2]
  | case4 read u v us _ ih =>
    obtain ⟨vs, hvs, hall⟩ := ih
    obtain ⟨w, hw, huw⟩ := hunit u
    refine ⟨w :: vs, ?_, .cons huw hall⟩
    rw [hvs]
    simp [hw]

theorem forall₂_decode (us : List UInt16) :
    List.Forall₂ (fun u v => v = u ∨ IsSurrogate u ∧ v = 0xFFFD) us (encode (decode us)) := by
  obtain ⟨vs, hvs, hall⟩ := forall₂_decodeOnto [] us
  rw [encode, decode, String.toList_ofList, hvs]
  exact hall

end Jvm.Text.Utf16
