import Mathlib
import Jvm.Heap.Object

/-! # What arrays hold

An array is typed if it would keep each of its elements as it is. New arrays are, and stores and copies
leave them so; the values in an array after a copy were in it before or come from the source. -/

namespace Jvm

theorem Arithmetic.i2b_i2b (a : Int32) : i2b (i2b a) = i2b a := by
  rw [i2b, i2b, Int8.toInt8_toInt32]

theorem Arithmetic.i2s_i2s (a : Int32) : i2s (i2s a) = i2s a := by
  rw [i2s, i2s, Int16.toInt16_toInt32]

theorem Arithmetic.i2c_i2c (a : Int32) : i2c (i2c a) = i2c a := by
  rw [i2c, i2c, Int32.and_assoc]
  rfl

theorem Arithmetic.i2c_unit (u : UInt16) : i2c u.toUInt32.toInt32 = u.toUInt32.toInt32 := by
  have hlt := u.toNat_lt
  refine Int32.toBitVec.inj (BitVec.eq_of_toNat_eq ?_)
  have hmask : (0xFFFF : Int32).toBitVec.toNat = 2 ^ 16 - 1 := rfl
  rw [i2c, Int32.toBitVec_and, BitVec.toNat_and, hmask, Nat.and_two_pow_sub_one_eq_mod]
  exact Nat.mod_eq_of_lt (by simpa using hlt)

/-- What is kept of a value is kept as it is. -/
theorem ElementAccess.keep?_keep? {a : ElementAccess} {v w : Value} (h : a.keep? v = some w) :
    a.keep? w = some w := by
  cases a <;> cases v <;> cases h <;> first | rfl | skip
  · exact congrArg (fun v => some (Value.int v)) (Arithmetic.i2b_i2b _)
  · exact congrArg (fun v => some (Value.int v)) (Arithmetic.i2c_i2c _)
  · exact congrArg (fun v => some (Value.int v)) (Arithmetic.i2s_i2s _)

/-- Objects are kept by arrays of objects only, and as they are. -/
theorem ElementAccess.of_keep?_ref {a : ElementAccess} {v : Value} {r : Ref}
    (h : a.keep? v = some (.ref r)) : a = .reference ∧ v = .ref r := by
  cases a <;> cases v <;> cases h
  exact ⟨rfl, rfl⟩

namespace Elements

variable {e e' source : Elements} {i n : Nat} {v w : Value}

/-- Whether an array keeps all its elements as they are. -/
def Typed (e : Elements) : Prop := ∀ v ∈ e.values, e.access.keep? v = some v

theorem typed_zeros (kind : ElementKind) (n : Nat) : (zeros kind n).Typed := by
  intro v hv
  obtain ⟨-, rfl⟩ := Array.mem_replicate.1 hv
  exact ElementAccess.keep?_zero _

theorem typed_ofChars (units : List UInt16) : (ofChars units).Typed := by
  intro v hv
  obtain ⟨u, -, rfl⟩ : ∃ u ∈ units, Value.int u.toUInt32.toInt32 = v := by simpa [ofChars] using hv
  exact congrArg (fun v => some (Value.int v)) (Arithmetic.i2c_unit u)

theorem keep?_of_kept? (h : e.kept? i v = some w) : e.access.keep? v = some w := by
  unfold kept? at h
  split at h
  · exact h
  · cases h

theorem mem_put (h : w ∈ (e.put i v).values) : w ∈ e.values ∨ w = v :=
  Array.mem_or_eq_of_mem_setIfInBounds h

theorem Typed.put (he : e.Typed) (i : Nat) (hv : e.access.keep? v = some v) : (e.put i v).Typed := by
  intro w hw
  rcases mem_put hw with hw | rfl
  exacts [he w hw, hv]

theorem mem_overwrite {values : Array Value} {start : Nat} {new : List Value}
    (h : w ∈ overwrite values start new) : w ∈ values ∨ w ∈ new := by
  induction new generalizing values start with
  | nil => exact .inl h
  | cons v rest ih =>
    rcases ih h with h | h
    · rcases Array.mem_or_eq_of_mem_setIfInBounds h with h | rfl
      exacts [.inl h, .inr List.mem_cons_self]
    · exact .inr (List.mem_cons_of_mem _ h)

theorem of_slice? (h : source.slice? i n = some e) :
    e.kind = source.kind ∧ ∀ v ∈ e.values, v ∈ source.values := by
  unfold slice? at h
  split at h
  · cases h
    refine ⟨rfl, fun v hv => ?_⟩
    obtain ⟨k, hk, rfl⟩ := Array.mem_iff_getElem.1 hv
    rw [Array.getElem_extract]
    exact Array.getElem_mem _
  · cases h

theorem of_writeSlice? (h : e.writeSlice? i source = some e') : e.access = source.access ∧
    e'.kind = e.kind ∧ ∀ v ∈ e'.values, v ∈ e.values ∨ v ∈ source.values := by
  unfold writeSlice? at h
  split at h
  · next hfits =>
    cases h
    refine ⟨hfits.1, rfl, fun v hv => ?_⟩
    simpa using mem_overwrite hv
  · cases h

theorem Typed.writeSlice? (he : e.Typed) (hsource : ∀ v ∈ source.values, source.access.keep? v = some v)
    (h : e.writeSlice? i source = some e') : e'.Typed := by
  obtain ⟨haccess, hkind, hmem⟩ := of_writeSlice? h
  intro v hv
  rw [access, hkind]
  rcases hmem v hv with hv | hv
  · exact he v hv
  · have := hsource v hv
    rwa [← haccess] at this

end Elements

namespace Contents

/-- The objects in an array are its elements. -/
theorem mem_references_array {e : Elements} (he : e.Typed) {s : Ref} :
    s ∈ (array e).references ↔ .ref s ∈ e.values := by
  rw [references]
  split
  · simp only [List.mem_filterMap, Array.mem_toList_iff]
    constructor
    · rintro ⟨v, hv, hs⟩
      cases v <;> cases hs
      exact hv
    · exact fun h => ⟨_, h, rfl⟩
  · next hkind =>
    refine ⟨fun h => absurd h List.not_mem_nil, fun h => ?_⟩
    obtain ⟨hreference, -⟩ := ElementAccess.of_keep?_ref (he _ h)
    refine absurd ?_ hkind
    unfold Elements.access at hreference
    cases hk : e.kind with
    | reference => rfl
    | primitive p => rw [hk] at hreference; cases p <;> cases hreference

theorem mem_references_fields {values : Array Value} {s : Ref} :
    s ∈ (fields values).references ↔ .ref s ∈ values := by
  simp only [references, List.mem_filterMap, Array.mem_toList_iff]
  constructor
  · rintro ⟨v, hv, hs⟩
    cases v <;> cases hs
    exact hv
  · exact fun h => ⟨_, h, rfl⟩

end Contents

end Jvm
