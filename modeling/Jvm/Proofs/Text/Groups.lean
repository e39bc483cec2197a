import Mathlib
import Jvm.Proofs.Text.ModifiedUtf8

/-! # The groups of modified UTF-8

Bytes are read in groups of one, two or three, each of which spells a code unit (`Group`). What is read is
exactly what consists of groups; otherwise the fault is the offset at which the first one is missing. Some units
have several groups: bytes are written again as they were read exactly where each group is the shortest of its
unit and every surrogate stands in a pair (`readsExactly`). What is written is read back (`encode_reversible`). -/

namespace Jvm.Text.ModifiedUtf8

/-! ### Bits and numbers -/

theorem shiftLeft_or {x y i : Nat} (hy : y < 2 ^ i) : x <<< i ||| y = x * 2 ^ i + y := by
  rw [← Nat.shiftLeft_add_eq_or_of_lt hy, Nat.shiftLeft_eq]

theorem toNat_low (b : UInt8) : (b &&& 0x3F).toUInt16.toNat = b.toNat % 0x40 := by
  rw [UInt8.toNat_toUInt16, UInt8.toNat_and]
  exact Nat.and_two_pow_sub_one_eq_mod b.toNat 6

theorem toNat_unitOfTwo (a b : UInt8) :
    (unitOfTwo a b).toNat = a.toNat % 0x20 * 0x40 + b.toNat % 0x40 := by
  have hhigh : (a &&& 0x1F).toUInt16.toNat = a.toNat % 0x20 := by
    rw [UInt8.toNat_toUInt16, UInt8.toNat_and]
    exact Nat.and_two_pow_sub_one_eq_mod a.toNat 5
  have hlow : b.toNat % 0x40 < 2 ^ 6 := Nat.mod_lt _ (by decide)
  rw [unitOfTwo, UInt16.toNat_or, UInt16.toNat_shiftLeft, hhigh, toNat_low]
  change (a.toNat % 0x20) <<< 6 % 2 ^ 16 ||| b.toNat % 0x40 = _
  rw [Nat.mod_eq_of_lt (by rw [Nat.shiftLeft_eq]; omega)]
  exact shiftLeft_or hlow

theorem toNat_unitOfThree (a b c : UInt8) : (unitOfThree a b c).toNat =
    a.toNat % 0x10 * 0x1000 + (b.toNat % 0x40 * 0x40 + c.toNat % 0x40) := by
  have hhigh : (a &&& 0x0F).toUInt16.toNat = a.toNat % 0x10 := by
    rw [UInt8.toNat_toUInt16, UInt8.toNat_and]
    exact Nat.and_two_pow_sub_one_eq_mod a.toNat 4
  have hlow : c.toNat % 0x40 < 2 ^ 6 := Nat.mod_lt _ (by decide)
  have hrest : b.toNat % 0x40 * 2 ^ 6 + c.toNat % 0x40 < 2 ^ 12 := by omega
  rw [unitOfThree, UInt16.toNat_or, UInt16.toNat_or, UInt16.toNat_shiftLeft, UInt16.toNat_shiftLeft, hhigh,
    toNat_low, toNat_low]
  change (a.toNat % 0x10) <<< 12 % 2 ^ 16 ||| (b.toNat % 0x40) <<< 6 % 2 ^ 16 ||| c.toNat % 0x40 = _
  rw [Nat.mod_eq_of_lt (a := (a.toNat % 0x10) <<< 12) (by rw [Nat.shiftLeft_eq]; omega),
    Nat.mod_eq_of_lt (a := (b.toNat % 0x40) <<< 6) (by rw [Nat.shiftLeft_eq]; omega), Nat.or_assoc,
    shiftLeft_or hlow]
  exact shiftLeft_or hrest

theorem isContinuation_iff {b : UInt8} :
    isContinuation b = true ↔ 0x80 ≤ b.toNat ∧ b.toNat ≤ 0xBF := by
  have hall : ∀ n < 256, n &&& 0xC0 = 0x80 ↔ 0x80 ≤ n ∧ n ≤ 0xBF := by decide +kernel
  rw [isContinuation, beq_iff_eq, ← UInt8.toNat_inj, UInt8.toNat_and]
  exact hall b.toNat b.toNat_lt

/-! ### Groups -/

/-- Bytes that spell a code unit. -/
inductive Group where
  | one (a : UInt8) (ha : 0x01 ≤ a.toNat ∧ a.toNat ≤ 0x7F)
  | two (a b : UInt8) (ha : 0xC0 ≤ a.toNat ∧ a.toNat ≤ 0xDF) (hb : 0x80 ≤ b.toNat ∧ b.toNat ≤ 0xBF)
  | three (a b c : UInt8) (ha : 0xE0 ≤ a.toNat ∧ a.toNat ≤ 0xEF) (hb : 0x80 ≤ b.toNat ∧ b.toNat ≤ 0xBF)
      (hc : 0x80 ≤ c.toNat ∧ c.toNat ≤ 0xBF)

namespace Group

/-- The bytes in order. -/
def bytes : Group → List UInt8
  | one a _ => [a]
  | two a b _ _ => [a, b]
  | three a b c _ _ _ => [a, b, c]

/-- The number that the bytes spell: what is beyond the least byte of each place, six bits a place. -/
def number : Group → Nat
  | one a _ => a.toNat
  | two a b _ _ => (a.toNat - 0xC0) * 0x40 + (b.toNat - 0x80)
  | three a b c _ _ _ => (a.toNat - 0xE0) * 0x1000 + (b.toNat - 0x80) * 0x40 + (c.toNat - 0x80)

/-- The code unit. -/
def unit (g : Group) : UInt16 := g.number.toUInt16

/-- Whether no group of the same unit has fewer bytes. -/
def IsShortest (g : Group) : Prop := ∀ g' : Group, g'.unit = g.unit → g.bytes.length ≤ g'.bytes.length

section

variable {a b c : UInt8} (ha₁ : 0x01 ≤ a.toNat ∧ a.toNat ≤ 0x7F) (ha₂ : 0xC0 ≤ a.toNat ∧ a.toNat ≤ 0xDF)
  (ha₃ : 0xE0 ≤ a.toNat ∧ a.toNat ≤ 0xEF) (hb : 0x80 ≤ b.toNat ∧ b.toNat ≤ 0xBF)
  (hc : 0x80 ≤ c.toNat ∧ c.toNat ≤ 0xBF)

theorem number_one : (one a ha₁).number = a.toNat := rfl

theorem number_two : (two a b ha₂ hb).number = (a.toNat - 0xC0) * 0x40 + (b.toNat - 0x80) := rfl

theorem number_three : (three a b c ha₃ hb hc).number =
    (a.toNat - 0xE0) * 0x1000 + (b.toNat - 0x80) * 0x40 + (c.toNat - 0x80) := rfl

theorem number_lt (g : Group) : g.number < 0x10000 := by
  cases g with
  | one => rw [number_one]; omega
  | two => rw [number_two]; omega
  | three => rw [number_three]; omega

theorem toNat_unit (g : Group) : g.unit.toNat = g.number := by
  rw [unit, Nat.toUInt16_eq, UInt16.toNat_ofNat', Nat.mod_eq_of_lt g.number_lt]

theorem bytes_ne_nil (g : Group) : g.bytes ≠ [] := by
  cases g <;> exact List.cons_ne_nil _ _

theorem unit_one : (one a ha₁).unit = a.toUInt16 := by
  rw [← UInt16.toNat_inj, toNat_unit, number_one, UInt8.toNat_toUInt16]

theorem unit_two : (two a b ha₂ hb).unit = unitOfTwo a b := by
  rw [← UInt16.toNat_inj, toNat_unit, number_two, toNat_unitOfTwo]
  omega

theorem unit_three : (three a b c ha₃ hb hc).unit = unitOfThree a b c := by
  rw [← UInt16.toNat_inj, toNat_unit, number_three, toNat_unitOfThree]
  omega

end

/-- The bytes of groups are none of 00 and F0 to FF. -/
theorem of_mem_bytes {g : Group} {b : UInt8} (hb : b ∈ g.bytes) : b ≠ 0x00 ∧ b < 0xF0 := by
  have hrange : 0 < b.toNat ∧ b.toNat < 0xF0 := by
    cases g <;> simp only [bytes, List.mem_cons, List.not_mem_nil, or_false] at hb
    · subst hb
      omega
    · rcases hb with rfl | rfl <;> omega
    · rcases hb with rfl | rfl | rfl <;> omega
  refine ⟨?_, UInt8.lt_iff_toNat_lt.2 hrange.2⟩
  rintro rfl
  exact absurd hrange.1 (by decide)

/-- What is written for a unit is a group of it. -/
theorem exists_bytesOfUnit (u : UInt16) : ∃ g : Group, g.bytes = bytesOfUnit u ∧ g.unit = u := by
  unfold bytesOfUnit
  split
  · next h =>
    simp only [Bool.and_eq_true, decide_eq_true_eq, UInt16.le_iff_toNat_le, UInt16.reduceToNat] at h
    have hb : u.toUInt8.toNat = u.toNat := by
      rw [UInt16.toNat_toUInt8]
      omega
    refine ⟨one u.toUInt8 (hb.symm ▸ h), rfl, ?_⟩
    rw [unit_one, ← UInt16.toNat_inj, UInt8.toNat_toUInt16, hb]
  split
  · next h =>
    have hu : u.toNat ≤ 0x7FF := UInt16.le_iff_toNat_le.mp h
    have hhead := toNat_headOfTwo h
    refine ⟨two _ _ ⟨?_, ?_⟩ (isContinuation_iff.1 (isContinuation_tail u)), rfl, ?_⟩
    · omega
    · omega
    · rw [unit_two, unitOfTwo_bytes h]
  · have hu := u.toNat_lt
    have hhead := toNat_headOfThree u
    refine ⟨three _ _ _ ⟨?_, ?_⟩ (isContinuation_iff.1 (isContinuation_tail (u >>> 6)))
      (isContinuation_iff.1 (isContinuation_tail u)), rfl, ?_⟩
    · omega
    · omega
    · rw [unit_three, unitOfThree_bytes]

/-- It is as short as any. -/
theorem length_bytesOfUnit_le_bytes (g : Group) : (bytesOfUnit g.unit).length ≤ g.bytes.length := by
  cases g with
  | one a ha =>
    rw [unit_one]
    refine (length_bytesOfUnit_one ?_ ?_).le <;> rw [UInt16.le_iff_toNat_le, UInt8.toNat_toUInt16]
    exacts [ha.1, ha.2]
  | two a b ha hb =>
    rw [unit_two]
    exact length_bytesOfUnit_two (unitOfTwo_le a b)
  | three a b c ha hb hc => exact length_bytesOfUnit_le _

/-- Groups of one length spell different units. -/
theorem bytes_eq_of_unit_eq {g g' : Group} (hunit : g.unit = g'.unit)
    (hlength : g.bytes.length = g'.bytes.length) : g.bytes = g'.bytes := by
  have hnumber : g.number = g'.number := by rw [← toNat_unit, ← toNat_unit, hunit]
  cases g <;> cases g' <;> simp only [bytes, List.length_cons, List.length_nil] at hlength <;>
    first | omega | simp only [number_one, number_two, number_three] at hnumber
  all_goals
    simp only [bytes, List.cons.injEq, ← UInt8.toNat_inj, and_true]
    omega

/-- The first byte tells how many there are. -/
theorem length_eq_of_append_eq {g g' : Group} {rest rest' : List UInt8}
    (h : g.bytes ++ rest = g'.bytes ++ rest') : g.bytes.length = g'.bytes.length := by
  cases g <;> cases g' <;> first | rfl | skip
  all_goals
    have hhead := (List.cons.inj h).1
    subst hhead
    omega

/-- The shortest group of a unit is the one that is written. -/
theorem isShortest_iff {g : Group} : g.IsShortest ↔ bytesOfUnit g.unit = g.bytes := by
  obtain ⟨w, hw, hunit⟩ := exists_bytesOfUnit g.unit
  constructor
  · intro hg
    have hlength : w.bytes.length = g.bytes.length :=
      le_antisymm (hw ▸ length_bytesOfUnit_le_bytes g) (hg w hunit)
    rw [← hw, bytes_eq_of_unit_eq hunit hlength]
  · intro hg g' hg'
    rw [← hg, ← hg']
    exact length_bytesOfUnit_le_bytes g'

end Group

/-- Groups one after the other. -/
def spelling (gs : List Group) : List UInt8 := gs.flatMap Group.bytes

/-! ### What is read -/

variable {gs : List Group} {g : Group} {rest bytes : List UInt8} {read us : List UInt16} {at_ : Nat}

theorem decodeOnto_group (at_ : Nat) (read : List UInt16) (g : Group) (rest : List UInt8) :
    decodeOnto at_ read (g.bytes ++ rest) = decodeOnto (at_ + g.bytes.length) (g.unit :: read) rest := by
  cases g with
  | one a ha =>
    rw [Group.unit_one]
    exact decodeOnto_one ha.1 ha.2
  | two a b ha hb =>
    rw [Group.unit_two]
    exact decodeOnto_two ha.1 ha.2 (isContinuation_iff.2 hb)
  | three a b c ha hb hc =>
    rw [Group.unit_three]
    exact decodeOnto_three ha.1 ha.2 (isContinuation_iff.2 hb) (isContinuation_iff.2 hc)

theorem decodeOnto_spelling (at_ : Nat) (read : List UInt16) (gs : List Group) (rest : List UInt8) :
    decodeOnto at_ read (spelling gs ++ rest) =
      decodeOnto (at_ + (spelling gs).length) ((gs.map Group.unit).reverse ++ read) rest := by
  induction gs generalizing at_ read with
  | nil => rfl
  | cons g gs ih =>
    change decodeOnto at_ read (g.bytes ++ spelling gs ++ rest) = _
    rw [List.append_assoc, decodeOnto_group, ih]
    simp [spelling, Nat.add_assoc]

/-- Whether bytes are there and begin with no group. -/
structure Malformed (bytes : List UInt8) : Prop where
  nonempty : bytes ≠ []
  noGroup : ∀ g : Group, ¬ g.bytes <+: bytes

/-- Where no group begins the fault is found at once. -/
theorem Malformed.decodeOnto_eq (h : Malformed bytes) (at_ : Nat) (read : List UInt16) :
    decodeOnto at_ read bytes = .error at_ := by
  obtain ⟨hne, hgroup⟩ := h
  fun_cases decodeOnto at_ read bytes with
  | case1 => exact absurd rfl hne
  | case2 a rest ha =>
    simp only [Bool.and_eq_true, decide_eq_true_eq, UInt8.le_iff_toNat_le, UInt8.reduceToNat] at ha
    exact absurd ⟨rest, rfl⟩ (hgroup (.one a ha))
  | case3 a _ ha b rest hb =>
    simp only [Bool.and_eq_true, decide_eq_true_eq, UInt8.le_iff_toNat_le, UInt8.reduceToNat] at ha
    exact absurd ⟨rest, rfl⟩ (hgroup (.two a b ha (isContinuation_iff.1 hb)))
  | case6 a _ _ ha b c rest hbc =>
    simp only [Bool.and_eq_true, decide_eq_true_eq, UInt8.le_iff_toNat_le, UInt8.reduceToNat] at ha hbc
    exact absurd ⟨rest, rfl⟩
      (hgroup (.three a b c ha (isContinuation_iff.1 hbc.1) (isContinuation_iff.1 hbc.2)))
  | _ => rfl

/-- Bytes are groups up to their end, or up to where no group begins. -/
theorem exists_spelling (bytes : List UInt8) :
    ∃ gs rest, bytes = spelling gs ++ rest ∧ (rest = [] ∨ Malformed rest) := by
  induction hn : bytes.length using Nat.strong_induction_on generalizing bytes with
  | _ n ih =>
    by_cases hne : bytes = []
    · exact ⟨[], [], by simp [hne, spelling], .inl rfl⟩
    by_cases hgroup : ∃ g : Group, g.bytes <+: bytes
    · obtain ⟨g, after, rfl⟩ := hgroup
      have hlength : after.length < n := by
        have := List.length_pos_iff.2 g.bytes_ne_nil
        rw [← hn, List.length_append]
        omega
      obtain ⟨gs, rest, rfl, hrest⟩ := ih _ hlength after rfl
      exact ⟨g :: gs, rest, by simp [spelling], hrest⟩
    · exact ⟨[], bytes, rfl, .inr ⟨hne, fun g hg => hgroup ⟨g, hg⟩⟩⟩

theorem decodeUnits_spelling (gs : List Group) : decodeUnits (spelling gs) = .ok (gs.map Group.unit) := by
  have h := decodeOnto_spelling 0 [] gs []
  rw [List.append_nil] at h
  rw [decodeUnits, h]
  simp [decodeOnto]

theorem Malformed.decodeUnits_eq (hrest : Malformed rest) (gs : List Group) :
    decodeUnits (spelling gs ++ rest) = .error (spelling gs).length := by
  rw [decodeUnits, decodeOnto_spelling, hrest.decodeOnto_eq, Nat.zero_add]

theorem decodeUnits_eq_ok_iff :
    decodeUnits bytes = .ok us ↔ ∃ gs, spelling gs = bytes ∧ gs.map Group.unit = us := by
  constructor
  · intro h
    obtain ⟨gs, rest, rfl, rfl | hrest⟩ := exists_spelling bytes
    · rw [List.append_nil, decodeUnits_spelling] at h
      exact ⟨gs, (List.append_nil _).symm, Except.ok.inj h⟩
    · rw [hrest.decodeUnits_eq] at h
      cases h
  · rintro ⟨gs, rfl, rfl⟩
    exact decodeUnits_spelling gs

theorem decodeUnits_eq_error_iff : decodeUnits bytes = .error at_ ↔
    ∃ gs rest, bytes = spelling gs ++ rest ∧ Malformed rest ∧ at_ = (spelling gs).length := by
  constructor
  · intro h
    obtain ⟨gs, rest, rfl, rfl | hrest⟩ := exists_spelling bytes
    · rw [List.append_nil, decodeUnits_spelling] at h
      cases h
    · rw [hrest.decodeUnits_eq] at h
      exact ⟨gs, rest, rfl, hrest, (Except.error.inj h).symm⟩
  · rintro ⟨gs, rest, rfl, hrest, rfl⟩
    exact hrest.decodeUnits_eq gs

theorem decode_spelling (gs : List Group) :
    decode (spelling gs) = .ok (Utf16.decode (gs.map Group.unit)) := by
  rw [decode, decodeUnits_spelling, Except.map]

/-! ### What is written again -/

/-- Groups that are written for their units are the shortest. -/
theorem isShortest_of_spelling_eq (h : spelling gs = (gs.map Group.unit).flatMap bytesOfUnit) :
    ∀ g ∈ gs, g.IsShortest := by
  induction gs with
  | nil => exact fun g hg => absurd hg List.not_mem_nil
  | cons g gs ih =>
    obtain ⟨w, hw, -⟩ := Group.exists_bytesOfUnit g.unit
    have happend : g.bytes ++ spelling gs = w.bytes ++ (gs.map Group.unit).flatMap bytesOfUnit := hw ▸ h
    obtain ⟨hhead, htail⟩ := List.append_inj happend (Group.length_eq_of_append_eq happend)
    rintro g' (_ | ⟨_, hg'⟩)
    · exact Group.isShortest_iff.2 (hw ▸ hhead.symm)
    · exact ih htail g' hg'

/-- Groups are in order exactly if each is the shortest of its unit and all surrogates stand in pairs. -/
theorem canonical_spelling_iff :
    Canonical (spelling gs) ↔ (∀ g ∈ gs, g.IsShortest) ∧ Utf16.Paired (gs.map Group.unit) := by
  constructor
  · rintro ⟨us, hus, hbytes⟩
    have hunits : gs.map Group.unit = us := by
      have h := decodeUnits_spelling gs
      rw [hbytes, decodeUnits_units] at h
      exact (Except.ok.inj h).symm
    subst hunits
    exact ⟨isShortest_of_spelling_eq hbytes, hus⟩
  · rintro ⟨hshort, hpaired⟩
    refine ⟨_, hpaired, ?_⟩
    rw [spelling, List.flatMap_map]
    exact List.flatMap_congr fun g hg => (Group.isShortest_iff.1 (hshort g hg)).symm

/-- What is read from some bytes, and what is forgotten. -/
structure ReadsExactly (bytes : List UInt8) : Prop where
  -- The bytes are accepted if they are groups, one after the other; their text is that of the units.
  accepted : ∀ s, decode bytes = .ok s ↔
    ∃ gs, spelling gs = bytes ∧ Utf16.decode (gs.map Group.unit) = s
  refused : ∀ at_, decode bytes = .error at_ ↔
    ∃ gs rest, bytes = spelling gs ++ rest ∧ Malformed rest ∧ at_ = (spelling gs).length
  -- The same bytes are written again exactly if each group is the shortest of its unit and no surrogate
  -- is unpaired.
  restored : ∀ s gs, decode bytes = .ok s → spelling gs = bytes →
    (encode s = bytes ↔ (∀ g ∈ gs, g.IsShortest) ∧ Utf16.Paired (gs.map Group.unit))
  -- Other bytes, of the shortest groups as well, have the same text only if there is an unpaired surrogate
  -- in the ones or the others.
  apart : ∀ gs gs', spelling gs = bytes → spelling gs' ≠ bytes → (∀ g ∈ gs, g.IsShortest) →
    (∀ g ∈ gs', g.IsShortest) → decode (spelling gs') = decode bytes →
      ¬ Utf16.Paired (gs.map Group.unit) ∨ ¬ Utf16.Paired (gs'.map Group.unit)

theorem decode_eq_ok_iff {s : String} :
    decode bytes = .ok s ↔ ∃ gs, spelling gs = bytes ∧ Utf16.decode (gs.map Group.unit) = s := by
  unfold decode
  constructor
  · intro h
    rcases hunits : decodeUnits bytes with e | us
    · rw [hunits] at h
      cases h
    · rw [hunits] at h
      obtain ⟨gs, hgs, rfl⟩ := decodeUnits_eq_ok_iff.1 hunits
      exact ⟨gs, hgs, Except.ok.inj h⟩
  · rintro ⟨gs, rfl, rfl⟩
    exact decode_spelling gs

theorem decode_eq_error_iff : decode bytes = .error at_ ↔
    ∃ gs rest, bytes = spelling gs ++ rest ∧ Malformed rest ∧ at_ = (spelling gs).length := by
  rw [← decodeUnits_eq_error_iff, decode]
  cases decodeUnits bytes with
  | error e => simp [Except.map]
  | ok us => simp [Except.map]

theorem encode_of_decode_spelling {s : String} (hs : decode (spelling gs) = .ok s) :
    encode s = spelling gs ↔ (∀ g ∈ gs, g.IsShortest) ∧ Utf16.Paired (gs.map Group.unit) :=
  (encode_eq_iff hs).trans canonical_spelling_iff

/-- **What is read is exactly what consists of groups**, and what cannot be told from the text are groups that
are longer than needed, and unpaired surrogates. -/
theorem readsExactly (bytes : List UInt8) : ReadsExactly bytes where
  accepted _ := decode_eq_ok_iff
  refused _ := decode_eq_error_iff
  restored s gs hs hgs := by
    subst hgs
    exact encode_of_decode_spelling hs
  apart gs gs' hgs hne hshort hshort' hsame := by
    subst hgs
    by_contra hpaired
    rw [not_or, not_not, not_not] at hpaired
    have hwritten := (encode_of_decode_spelling (decode_spelling gs)).2 ⟨hshort, hpaired.1⟩
    have hwritten' := (encode_of_decode_spelling (decode_spelling gs')).2 ⟨hshort', hpaired.2⟩
    rw [decode_spelling, decode_spelling] at hsame
    rw [Except.ok.inj hsame, hwritten] at hwritten'
    exact hne hwritten'.symm

/-- A group longer than needed, and an unpaired surrogate. -/
example : decode [0xC1, 0x81] = decode [0x41] ∧ decode [0xED, 0xA0, 0x80] = decode [0xEF, 0xBF, 0xBD] := by
  decide +kernel

/-! ### What is written -/

/-- **Every text is read back from its bytes**, so no two texts have the same bytes, and 00 and F0 to FF are not
among them. -/
theorem encode_reversible :
    (∀ s, decode (encode s) = .ok s ∧ ∀ b ∈ encode s, b ≠ 0x00 ∧ b < 0xF0) ∧ Function.Injective encode := by
  refine ⟨fun s => ⟨decode_encode s, fun b hb => ?_⟩, fun s s' h => ?_⟩
  · obtain ⟨u, -, hu⟩ := List.mem_flatMap.1 hb
    obtain ⟨g, hg, -⟩ := Group.exists_bytesOfUnit u
    exact Group.of_mem_bytes (hg ▸ hu)
  · have hs := decode_encode s
    rw [h, decode_encode] at hs
    exact (Except.ok.inj hs).symm

end Jvm.Text.ModifiedUtf8
