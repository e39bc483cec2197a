import Mathlib
import Jvm.Proofs.Execution.Arrays

/-! # The algebra of array storage

What stores and copies do to arrays, as laws about what is loaded before and after. A store is done exactly when
the index is in range and the value of a kind that the array takes, and what is loaded then is the value cut down
to the width of an element (`Narrows`). A copy is done exactly when both ranges lie inside of their arrays and the
elements are accessed in the same way, and it puts what was in the one range before over the other one, also where
both are of one array (`Transfer`). `storage_laws` says this of all arrays and heaps. -/

namespace Jvm

/-! ### Narrowing -/

namespace Arithmetic

theorem toInt_i2b (a : Int32) : (i2b a).toInt = a.toInt.bmod (2 ^ 8) := by
  rw [i2b, Int8.toInt_toInt32, Int32.toInt_toInt8]

theorem toInt_i2s (a : Int32) : (i2s a).toInt = a.toInt.bmod (2 ^ 16) := by
  rw [i2s, Int16.toInt_toInt32, Int32.toInt_toInt16]

theorem toInt_i2c (a : Int32) : (i2c a).toInt = a.toInt % 2 ^ 16 := by
  have hmask : (0xFFFF : Int32).toBitVec.toNat = 2 ^ 16 - 1 := rfl
  have hnat : (i2c a).toBitVec.toNat = a.toBitVec.toNat % 2 ^ 16 := by
    rw [i2c, Int32.toBitVec_and, BitVec.toNat_and, hmask, Nat.and_two_pow_sub_one_eq_mod]
  rw [← Int32.toInt_toBitVec, ← Int32.toInt_toBitVec, BitVec.toInt_eq_toNat_cond, BitVec.toInt_eq_toNat_cond, hnat]
  split_ifs <;> omega

end Arithmetic

namespace ElementAccess

/-- Whether a value is of a kind that elements can have. -/
inductive Takes : ElementAccess → Value → Prop
  | int {a : ElementAccess} (ha : a = .byte ∨ a = .char ∨ a = .short ∨ a = .int) (v : Int32) : Takes a (.int v)
  | long (v : Int64) : Takes .long (.long v)
  | float (bits : UInt32) : Takes .float (.float bits)
  | double (bits : UInt64) : Takes .double (.double bits)
  | null : Takes .reference .null
  | ref (r : Ref) : Takes .reference (.ref r)

/-- Whether a value is what is loaded after another one has been stored: an int is cut down to the width of an
element, with its sign in bytes and shorts and without one in chars, and all else stays. -/
inductive Narrows : ElementAccess → Value → Value → Prop
  | byte {v w : Int32} (h : w.toInt = v.toInt.bmod (2 ^ 8)) : Narrows .byte (.int v) (.int w)
  | char {v w : Int32} (h : w.toInt = v.toInt % 2 ^ 16) : Narrows .char (.int v) (.int w)
  | short {v w : Int32} (h : w.toInt = v.toInt.bmod (2 ^ 16)) : Narrows .short (.int v) (.int w)
  | whole {a : ElementAccess} {v : Value} (ha : a ≠ .byte ∧ a ≠ .char ∧ a ≠ .short) : Narrows a v v

variable {a : ElementAccess} {v w : Value}

theorem takes_of_keep? (h : a.keep? v = some w) : a.Takes v := by
  cases a <;> cases v <;> cases h <;> constructor <;> simp

theorem exists_keep? (h : a.Takes v) : ∃ w, a.keep? v = some w := by
  cases h with
  | int ha => rcases ha with rfl | rfl | rfl | rfl <;> exact ⟨_, rfl⟩
  | _ => exact ⟨_, rfl⟩

theorem narrows_of_keep? (h : a.keep? v = some w) : a.Narrows v w := by
  cases a <;> cases v <;> cases h
  case byte.int.refl v => exact .byte (Arithmetic.toInt_i2b v)
  case char.int.refl v => exact .char (Arithmetic.toInt_i2c v)
  case short.int.refl v => exact .short (Arithmetic.toInt_i2s v)
  all_goals exact .whole (by decide)

end ElementAccess

/-! ### Stores -/

namespace Elements

variable {e f : Elements} {i j n : Nat} {v : Value}

/-- Whether a range lies inside of an array. Its end is a sum of naturals, which does not run over. -/
def Covers (e : Elements) (i n : Nat) : Prop := i + n ≤ e.size

instance : Decidable (e.Covers i n) := inferInstanceAs (Decidable (_ ≤ _))

/-- A store as it is called: whether it was done, and the array afterwards. -/
def storing (e : Elements) (i : Nat) (v : Value) : Bool × Elements :=
  match e.store? i v with
  | some e' => (true, e')
  | none => (false, e)

/-- What a store to an array does. -/
structure Stores (e : Elements) (i : Nat) (v : Value) : Prop where
  done_iff : (e.storing i v).1 = true ↔ i < e.size ∧ e.access.Takes v
  loads : (e.storing i v).1 = true → ∃ w, e.access.Narrows v w ∧ (e.storing i v).2.load? i = some w
  others : ∀ j, j ≠ i → (e.storing i v).2.load? j = e.load? j
  shape : (e.storing i v).2.size = e.size ∧ (e.storing i v).2.kind = e.kind
  refused : (e.storing i v).1 = false → (e.storing i v).2 = e

theorem storing_of_takes (hi : i < e.size) (hv : e.access.Takes v) :
    ∃ w, e.access.Narrows v w ∧ e.storing i v = (true, e.put i w) := by
  obtain ⟨w, hw⟩ := ElementAccess.exists_keep? hv
  refine ⟨w, ElementAccess.narrows_of_keep? hw, ?_⟩
  rw [storing, store?, kept?, if_pos hi, hw]
  rfl

theorem storing_of_not_takes (h : ¬ (i < e.size ∧ e.access.Takes v)) : e.storing i v = (false, e) := by
  have hkept : e.kept? i v = none := by
    unfold kept?
    split_ifs with hi
    · cases hw : e.access.keep? v with
      | none => rfl
      | some w => exact absurd ⟨hi, ElementAccess.takes_of_keep? hw⟩ h
    · rfl
  rw [storing, store?, hkept]
  rfl

theorem load?_put (e : Elements) (i j : Nat) (v : Value) :
    (e.put i v).load? j = if i = j ∧ i < e.size then some v else e.load? j := by
  rw [put, load?, load?, Array.getElem?_setIfInBounds]
  by_cases hij : i = j <;> by_cases hi : i < e.size <;> simp_all [size]

theorem stores (e : Elements) (i : Nat) (v : Value) : e.Stores i v := by
  by_cases h : i < e.size ∧ e.access.Takes v
  · obtain ⟨w, hw, hstoring⟩ := storing_of_takes h.1 h.2
    constructor <;> rw [hstoring]
    · exact iff_of_true rfl h
    · exact fun _ => ⟨w, hw, by rw [load?_put, if_pos ⟨rfl, h.1⟩]⟩
    · exact fun j hj => by rw [load?_put, if_neg fun hij => hj hij.1.symm]
    · exact ⟨size_put .., rfl⟩
    · exact fun hfalse => (by cases hfalse)
  · have hstoring := storing_of_not_takes h
    constructor <;> rw [hstoring]
    · exact iff_of_false Bool.false_ne_true h
    · exact fun htrue => (by cases htrue)
    · exact fun _ _ => rfl
    · exact ⟨rfl, rfl⟩
    · exact fun _ => rfl

/-! ### Copies -/

/-- A slice is put over the elements of an array that are accessed in the same way, if there is room for it. -/
theorem writeSlice?_of_covers (hi : e.Covers i n) : ∃ slice, e.slice? i n = some slice ∧
    f.writeSlice? j slice =
      if e.access = f.access ∧ f.Covers j n then some (f.overlaid j (e.part i n)) else none := by
  have hpart : (e.values.extract i (i + n)).toList = e.part i n := by
    rw [Array.toList_extract, List.extract_eq_take_drop, part, Nat.add_sub_cancel_left]
  have hsize : (e.values.extract i (i + n)).size = n := by
    rw [← Array.length_toList, hpart, length_part hi]
  refine ⟨{ e with values := e.values.extract i (i + n) }, if_pos hi, ?_⟩
  rw [writeSlice?, hpart, overlaid]
  exact if_congr (and_congr eq_comm (by rw [size, hsize, Covers])) rfl rfl

end Elements

namespace Heap

variable {κ : Type} {h : Heap κ} {s t : Ref} {o p : Object κ} {e f : Elements} {i j n : Nat}

theorem elements_eq_ok_iff {r : Ref} :
    h.elements r = .ok e ↔ ∃ o, h.object? r = some o ∧ o.contents = .array e := by
  constructor
  · intro he
    cases ho : h.object? r with
    | none =>
      simp only [elements, object, ho, bind, Except.bind] at he
      cases he
    | some o => exact ⟨o, rfl, contents_of_elements ho he⟩
  · rintro ⟨o, ho, hc⟩
    exact elements_of_object? ho hc

/-- A copy between two arrays either puts a part of the one over a part of the other, or is refused. -/
theorem copied_eq (he : h.elements s = .ok e) (hf : h.elements t = .ok f) (i j n : Nat) :
    h.copied s i t j n = .ok (if e.Covers i n ∧ e.access = f.access ∧ f.Covers j n then
      some (f.overlaid j (e.part i n)) else none) := by
  simp only [copied, he, hf, bind, Except.bind]
  by_cases hi : e.Covers i n
  · obtain ⟨slice, hslice, hwrite⟩ := Elements.writeSlice?_of_covers (f := f) (j := j) hi
    simp only [hslice, hwrite, hi, true_and]
    rfl
  · have hslice : e.slice? i n = none := if_neg hi
    simp only [hslice, hi, false_and, if_false]
    rfl

/-- Whether a heap becomes another by a copy of `n` elements between arrays, and by that only: they are those that
the source had before. -/
structure Transfer (h h' : Heap κ) (s : Ref) (i : Nat) (t : Ref) (j n : Nat) : Prop where
  copied : ∀ k < n, ∃ v, h.element? s (i + k) = some v ∧ h'.element? t (j + k) = some v
  others : ∀ k, k < j ∨ j + n ≤ k → h'.element? t k = h.element? t k
  target : ∃ o e e', h.object? t = some o ∧ o.contents = .array e ∧
    h'.object? t = some { o with contents := .array e' } ∧ e'.kind = e.kind ∧ e'.size = e.size
  objects : ∀ r, r ≠ t → h'.object? r = h.object? r
  rest : h' = { h with slots := h'.slots }

theorem transfer_overlaid (ho : h.object? s = some o) (he : o.contents = .array e) (hp : h.object? t = some p)
    (hf : p.contents = .array f) (hi : e.Covers i n) (hj : f.Covers j n) :
    Transfer h (h.setElements t (f.overlaid j (e.part i n))) s i t j n := by
  have hlength : (e.part i n).length = n := Elements.length_part hi
  have htarget : (h.setElements t (f.overlaid j (e.part i n))).object? t =
      some { p with contents := .array (f.overlaid j (e.part i n)) } := by
    rw [object?_setElements, if_pos rfl, hp]
    rfl
  have hload : ∀ k, (h.setElements t (f.overlaid j (e.part i n))).element? t k =
      if j ≤ k ∧ k < j + n then (e.part i n)[k - j]? else f.load? k := by
    intro k
    rw [element?_of_object? htarget rfl, Elements.load?_overlaid (by rw [hlength]; exact hj), hlength]
  refine ⟨fun k hk => ?_, fun k hk => ?_, ⟨p, f, _, hp, hf, htarget, rfl, Elements.size_overlaid ..⟩,
    fun r hr => ?_, rfl⟩
  · have hlt : i + k < e.values.size := lt_of_lt_of_le (by omega) hi
    refine ⟨e.values[i + k], ?_, ?_⟩
    · rw [element?_of_object? ho he]
      exact Array.getElem?_eq_getElem hlt
    · rw [hload, if_pos (by omega), Nat.add_sub_cancel_left, Elements.getElem?_part hk]
      exact Array.getElem?_eq_getElem hlt
  · rw [hload, if_neg (by omega), element?_of_object? hp hf]
  · rw [object?_setElements, if_neg hr]

/-- A copy as it is called: whether it was done, and the heap afterwards. -/
def copying (h : Heap κ) (s : Ref) (i : Nat) (t : Ref) (j n : Nat) : Except Fault Bool × Heap κ :=
  match h.copyElements s i t j n with
  | .ok (some h') => (.ok true, h')
  | .ok none => (.ok false, h)
  | .error e => (.error e, h)

/-- Whether a copy of `n` elements can be done: both objects are arrays whose elements are accessed in the same
way, and the ranges lie inside of them. -/
def CanCopy (h : Heap κ) (s : Ref) (i : Nat) (t : Ref) (j n : Nat) : Prop :=
  ∃ e f, h.elements s = .ok e ∧ h.elements t = .ok f ∧ e.Covers i n ∧ f.Covers j n ∧ e.access = f.access

/-- What a copy between objects does. -/
structure Copies (h : Heap κ) (s : Ref) (i : Nat) (t : Ref) (j n : Nat) : Prop where
  answers : ∀ e f, h.elements s = .ok e → h.elements t = .ok f → ∃ done, (h.copying s i t j n).1 = .ok done
  done_iff : (h.copying s i t j n).1 = .ok true ↔ h.CanCopy s i t j n
  transfers : (h.copying s i t j n).1 = .ok true → Transfer h (h.copying s i t j n).2 s i t j n
  refused : (h.copying s i t j n).1 ≠ .ok true → (h.copying s i t j n).2 = h

theorem copying_eq (he : h.elements s = .ok e) (hf : h.elements t = .ok f) : h.copying s i t j n =
    if e.Covers i n ∧ e.access = f.access ∧ f.Covers j n then
      (.ok true, h.setElements t (f.overlaid j (e.part i n))) else (.ok false, h) := by
  simp only [copying, copyElements, copied_eq he hf, bind, Except.bind]
  split_ifs <;> rfl

/-- A copy that is done is one between arrays. -/
theorem exists_elements_of_copying (hdone : (h.copying s i t j n).1 = .ok true) :
    ∃ e f, h.elements s = .ok e ∧ h.elements t = .ok f := by
  unfold copying copyElements copied at hdone
  rcases he : h.elements s with _ | e
  · rw [he] at hdone
    cases hdone
  · rcases hf : h.elements t with _ | f
    · rw [he, hf] at hdone
      simp only [bind, Except.bind] at hdone
      cases hslice : e.slice? i n with
      | none =>
        rw [hslice] at hdone
        cases hdone
      | some slice =>
        rw [hslice] at hdone
        cases hdone
    · exact ⟨e, f, rfl, rfl⟩

theorem copies (h : Heap κ) (s : Ref) (i : Nat) (t : Ref) (j n : Nat) : h.Copies s i t j n := by
  refine ⟨fun e f he hf => ?_, ⟨fun hdone => ?_, ?_⟩, fun hdone => ?_, fun hnot => ?_⟩
  · rw [copying_eq he hf]
    split_ifs
    exacts [⟨true, rfl⟩, ⟨false, rfl⟩]
  · obtain ⟨e, f, he, hf⟩ := exists_elements_of_copying hdone
    rw [copying_eq he hf] at hdone
    split_ifs at hdone with hfits
    · exact ⟨e, f, he, hf, hfits.1, hfits.2.2, hfits.2.1⟩
    · cases hdone
  · rintro ⟨e, f, he, hf, hi, hj, haccess⟩
    rw [copying_eq he hf, if_pos ⟨hi, haccess, hj⟩]
  · obtain ⟨e, f, he, hf⟩ := exists_elements_of_copying hdone
    rw [copying_eq he hf] at hdone ⊢
    obtain ⟨o, ho, hoc⟩ := elements_eq_ok_iff.1 he
    obtain ⟨p, hp, hpc⟩ := elements_eq_ok_iff.1 hf
    split_ifs at hdone ⊢ with hfits
    · exact transfer_overlaid ho hoc hp hpc hfits.1 hfits.2.2
    · cases hdone
  · unfold copying at hnot ⊢
    split at hnot
    · exact absurd rfl hnot
    · rfl
    · rfl

/-- **Stores and copies do what they say,** for all arrays and heaps, indices, lengths and values. -/
theorem storage_laws : (∀ (e : Elements) (i : Nat) (v : Value), e.Stores i v) ∧
    ∀ (κ : Type) (h : Heap κ) (s : Ref) (i : Nat) (t : Ref) (j n : Nat), h.Copies s i t j n :=
  ⟨Elements.stores, fun _ => copies⟩

end Heap

end Jvm
