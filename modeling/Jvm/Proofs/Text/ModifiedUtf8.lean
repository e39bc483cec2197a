import Mathlib
import Jvm.Proofs.Text.Utf16
import Jvm.Text.ModifiedUtf8

/-! # Texts in modified UTF-8

A text is read back from its encoding (`decode_encode`). Bytes may spell a text in other ways, with longer
groups than needed or with surrogates outside of pairs: encoding what was read gives the same bytes exactly
where they are `Canonical` (`encode_eq_iff`), and never more bytes (`length_encode_le`). -/

namespace Jvm.Text.ModifiedUtf8

/-! ### Groups -/

theorem unitOfTwo_bytes {u : UInt16} (h : u ≤ 0x7FF) :
    unitOfTwo ((0xC0 : UInt8) ||| (u >>> 6).toUInt8) ((0x80 : UInt8) ||| (u &&& 0x3F).toUInt8) = u := by
  have hlt : u.toNat < 2 ^ 11 := Nat.lt_succ_of_le (UInt16.le_iff_toNat_le.mp h)
  apply UInt16.eq_of_toBitVec_eq
  apply BitVec.eq_of_getLsbD_eq
  intro i hi
  have hhigh : 11 ≤ i → u.toBitVec.getLsbD i = false := fun h =>
    Nat.testBit_lt_two_pow (Nat.lt_of_lt_of_le hlt (Nat.pow_le_pow_right (by decide) h))
  unfold unitOfTwo
  interval_cases i <;> simp [-UInt16.toUInt16_toUInt8] at hhigh ⊢ <;> exact hhigh

theorem unitOfThree_bytes (u : UInt16) :
    unitOfThree ((0xE0 : UInt8) ||| (u >>> 12).toUInt8) ((0x80 : UInt8) ||| ((u >>> 6) &&& 0x3F).toUInt8)
      ((0x80 : UInt8) ||| (u &&& 0x3F).toUInt8) = u := by
  apply UInt16.eq_of_toBitVec_eq
  apply BitVec.eq_of_getLsbD_eq
  intro i hi
  unfold unitOfThree
  interval_cases i <;> simp [-UInt16.toUInt16_toUInt8]

theorem isContinuation_tail (u : UInt16) :
    isContinuation ((0x80 : UInt8) ||| (u &&& 0x3F).toUInt8) = true := by
  rw [isContinuation, beq_iff_eq]
  apply UInt8.eq_of_toBitVec_eq
  apply BitVec.eq_of_getLsbD_eq
  intro i hi
  interval_cases i <;> simp

theorem toNat_headOfTwo {u : UInt16} (h : u ≤ 0x7FF) :
    ((0xC0 : UInt8) ||| (u >>> 6).toUInt8).toNat = 0xC0 + u.toNat / 64 := by
  have hall : ∀ n < 32, 0xC0 ||| n = 0xC0 + n := by decide
  have hu : u.toNat ≤ 0x7FF := UInt16.le_iff_toNat_le.mp h
  have hpart : (u >>> 6).toUInt8.toNat = u.toNat / 64 := by
    simp [Nat.shiftRight_eq_div_pow]
    omega
  rw [UInt8.toNat_or, hpart]
  exact hall _ (by omega)

theorem toNat_headOfThree (u : UInt16) :
    ((0xE0 : UInt8) ||| (u >>> 12).toUInt8).toNat = 0xE0 + u.toNat / 4096 := by
  have hall : ∀ n < 16, 0xE0 ||| n = 0xE0 + n := by decide
  have hu := u.toNat_lt
  have hpart : (u >>> 12).toUInt8.toNat = u.toNat / 4096 := by
    simp [Nat.shiftRight_eq_div_pow]
    omega
  rw [UInt8.toNat_or, hpart]
  exact hall _ (by omega)

section

variable {at_ : Nat} {read : List UInt16} {a b c : UInt8} {rest : List UInt8}

theorem decodeOnto_one (h : 1 ≤ a.toNat) (h' : a.toNat ≤ 0x7F) :
    decodeOnto at_ read (a :: rest) = decodeOnto (at_ + 1) (a.toUInt16 :: read) rest := by
  rw [decodeOnto.eq_def]
  simp [UInt8.le_iff_toNat_le, h, h']

theorem decodeOnto_two (h : 0xC0 ≤ a.toNat) (h' : a.toNat ≤ 0xDF) (hb : isContinuation b = true) :
    decodeOnto at_ read (a :: b :: rest) = decodeOnto (at_ + 2) (unitOfTwo a b :: read) rest := by
  have hnot : ¬ a.toNat ≤ 127 := by omega
  rw [decodeOnto.eq_def]
  simp [UInt8.le_iff_toNat_le, h, h', hb, hnot]

theorem decodeOnto_three (h : 0xE0 ≤ a.toNat) (h' : a.toNat ≤ 0xEF) (hb : isContinuation b = true)
    (hc : isContinuation c = true) : decodeOnto at_ read (a :: b :: c :: rest) =
      decodeOnto (at_ + 3) (unitOfThree a b c :: read) rest := by
  have hnot : ¬ a.toNat ≤ 127 := by omega
  have hnot' : ¬ a.toNat ≤ 223 := by omega
  rw [decodeOnto.eq_def]
  simp [UInt8.le_iff_toNat_le, h, h', hb, hc, hnot, hnot']

end

/-- The group of a unit is read as this unit. -/
theorem decodeOnto_bytesOfUnit (at_ : Nat) (read : List UInt16) (u : UInt16) (bs : List UInt8) :
    decodeOnto at_ read (bytesOfUnit u ++ bs) =
      decodeOnto (at_ + (bytesOfUnit u).length) (u :: read) bs := by
  unfold bytesOfUnit
  split
  · next h =>
    simp only [Bool.and_eq_true, decide_eq_true_eq, UInt16.le_iff_toNat_le, UInt16.reduceToNat] at h
    have hb : u.toUInt8.toNat = u.toNat := by
      rw [UInt16.toNat_toUInt8]
      omega
    have hunit : u.toUInt8.toUInt16 = u := by
      rw [← UInt16.toNat_inj, UInt8.toNat_toUInt16, hb]
    rw [List.singleton_append, decodeOnto_one (hb ▸ h.1) (hb ▸ h.2), hunit]
    rfl
  split
  · next h =>
    have hhead := toNat_headOfTwo h
    have hu : u.toNat ≤ 0x7FF := UInt16.le_iff_toNat_le.mp h
    rw [List.cons_append, List.singleton_append,
      decodeOnto_two (by omega) (by omega) (isContinuation_tail u), unitOfTwo_bytes h]
    rfl
  · have hhead := toNat_headOfThree u
    have hu := u.toNat_lt
    rw [List.cons_append, List.cons_append, List.singleton_append, decodeOnto_three (by omega) (by omega)
      (isContinuation_tail _) (isContinuation_tail u), unitOfThree_bytes]
    rfl

theorem decodeOnto_units (at_ : Nat) (read us : List UInt16) :
    decodeOnto at_ read (us.flatMap bytesOfUnit) = .ok (read.reverse ++ us) := by
  induction us generalizing at_ read with
  | nil => simp [decodeOnto]
  | cons u us ih =>
    rw [List.flatMap_cons, decodeOnto_bytesOfUnit, ih]
    simp

theorem decodeUnits_units (us : List UInt16) : decodeUnits (us.flatMap bytesOfUnit) = .ok us :=
  decodeOnto_units 0 [] us

/-- A text is read back from its bytes. -/
theorem decode_encode (s : String) : decode (encode s) = .ok s := by
  rw [decode, encode, decodeUnits_units, Except.map, Utf16.decode_encode]

/-! ### Other spellings -/

/-- Whether bytes spell their units each in its own group, with every surrogate in a pair. -/
def Canonical (bytes : List UInt8) : Prop :=
  ∃ us, Utf16.Paired us ∧ bytes = us.flatMap bytesOfUnit

theorem canonical_encode (s : String) : Canonical (encode s) := ⟨_, Utf16.paired_encode s, rfl⟩

/-- **Texts are written as they were read** where their bytes are canonical, and only there. -/
theorem encode_eq_iff {bytes : List UInt8} {s : String} (h : decode bytes = .ok s) :
    encode s = bytes ↔ Canonical bytes := by
  refine ⟨fun heq => heq ▸ canonical_encode s, ?_⟩
  rintro ⟨us, hus, rfl⟩
  rw [decode, decodeUnits_units] at h
  cases h
  rw [encode, Utf16.encode_decode hus]

theorem length_bytesOfUnit_le (u : UInt16) : (bytesOfUnit u).length ≤ 3 := by
  unfold bytesOfUnit
  split
  · exact Nat.le_add_left 1 2
  split
  · exact Nat.le_succ 2
  · exact le_rfl

theorem length_bytesOfUnit_two {u : UInt16} (h : u ≤ 0x7FF) : (bytesOfUnit u).length ≤ 2 := by
  unfold bytesOfUnit
  rw [if_pos h]
  split
  · exact Nat.le_succ 1
  · exact le_rfl

theorem length_bytesOfUnit_one {u : UInt16} (h : 1 ≤ u) (h' : u ≤ 0x7F) : (bytesOfUnit u).length = 1 := by
  rw [bytesOfUnit, if_pos (by simp [h, h'])]
  rfl

theorem unitOfTwo_le (a b : UInt8) : unitOfTwo a b ≤ 0x7FF := by
  have hbits : (unitOfTwo a b).toNat < 2 ^ 11 := by
    refine Nat.lt_pow_two_of_testBit _ fun i hi => ?_
    change (unitOfTwo a b).toBitVec.getLsbD i = false
    rcases Nat.lt_or_ge i 16 with h | h
    · unfold unitOfTwo
      interval_cases i <;> simp
    · exact BitVec.getLsbD_of_ge _ _ h
  rw [UInt16.le_iff_toNat_le]
  exact Nat.le_of_lt_succ hbits

/-- Every unit that is read has taken at least the bytes of its own group. -/
theorem length_decodeOnto {at_ : Nat} {read us : List UInt16} {bs : List UInt8}
    (h : decodeOnto at_ read bs = .ok us) :
    ∃ vs, us = read.reverse ++ vs ∧ (vs.flatMap bytesOfUnit).length ≤ bs.length := by
  fun_induction decodeOnto at_ read bs with
  | case1 at_ read =>
    cases h
    exact ⟨[], by simp, by simp⟩
  | case2 at_ read a rest ha ih =>
    obtain ⟨vs, rfl, hvs⟩ := ih h
    simp only [Bool.and_eq_true, decide_eq_true_eq, UInt8.le_iff_toNat_le] at ha
    have hone := length_bytesOfUnit_one (u := a.toUInt16)
      (by rw [UInt16.le_iff_toNat_le, UInt8.toNat_toUInt16]; exact ha.1)
      (by rw [UInt16.le_iff_toNat_le, UInt8.toNat_toUInt16]; exact ha.2)
    refine ⟨a.toUInt16 :: vs, by simp, ?_⟩
    rw [List.flatMap_cons, List.length_append, List.length_cons]
    omega
  | case3 at_ read a _ _ b rest _ ih =>
    obtain ⟨vs, rfl, hvs⟩ := ih h
    have htwo := length_bytesOfUnit_two (unitOfTwo_le a b)
    refine ⟨unitOfTwo a b :: vs, by simp, ?_⟩
    rw [List.flatMap_cons, List.length_append, List.length_cons, List.length_cons]
    omega
  | case6 at_ read a _ _ _ b c rest _ ih =>
    obtain ⟨vs, rfl, hvs⟩ := ih h
    have hthree := length_bytesOfUnit_le (unitOfThree a b c)
    refine ⟨unitOfThree a b c :: vs, by simp, ?_⟩
    rw [List.flatMap_cons, List.length_append, List.length_cons, List.length_cons, List.length_cons]
    omega
  | _ => cases h

theorem length_bytesOfUnit_surrogate {u : UInt16} (h : Utf16.IsSurrogate u) :
    (bytesOfUnit u).length = 3 := by
  have hge := (Utf16.isSurrogate_iff.mp h).1
  rw [bytesOfUnit, if_neg, if_neg]
  · rfl
  all_goals
    simp only [Bool.and_eq_true, decide_eq_true_eq, UInt16.le_iff_toNat_le, UInt16.reduceToNat]
    omega

/-- What was read takes no more bytes when it is written. -/
theorem length_encode_le {bytes : List UInt8} {s : String} (h : decode bytes = .ok s) :
    (encode s).length ≤ bytes.length := by
  unfold decode decodeUnits at h
  rcases hunits : decodeOnto 0 [] bytes with e | us
  · rw [hunits] at h
    cases h
  rw [hunits] at h
  cases h
  obtain ⟨vs, hvs, hle⟩ := length_decodeOnto hunits
  obtain rfl : us = vs := hvs
  refine le_trans (le_of_eq ?_) hle
  -- an unpaired surrogate and the character that takes its place both have three bytes
  have hsame : (Utf16.encode (Utf16.decode us)).map (fun u => (bytesOfUnit u).length) =
      us.map fun u => (bytesOfUnit u).length := by
    rw [← List.forall₂_eq_eq_eq, List.forall₂_map_left_iff, List.forall₂_map_right_iff]
    refine (Utf16.forall₂_decode us).flip.imp fun v u huv => ?_
    obtain rfl | ⟨hu, rfl⟩ := huv
    · rfl
    · rw [length_bytesOfUnit_surrogate hu]
      rfl
  rw [encode, List.length_flatMap, List.length_flatMap, hsame]

end Jvm.Text.ModifiedUtf8
