import Mathlib
import Jvm.Proofs.ClassFile.Layout

/-! # Class files that are read and written back

A class file that was read is read from its own bytes again, and these are the bytes it was read from
exactly where all of its texts were spelt the way they are written. -/

namespace Jvm.ClassFile

open Assembly Reader Text

/-! ### Constants -/

/-- The bytes of the texts among constants, where these lie one behind the other in front of other bytes. -/
def rawTexts : List Constant → List UInt8 → List (List UInt8)
  | [], _ => []
  | .utf8 _ :: cs, bs =>
    let length := beNat ((bs.drop 1).take 2)
    (bs.drop 3).take length :: rawTexts cs (bs.drop (3 + length))
  | c :: cs, bs => rawTexts cs (bs.drop (constantBytes c).length)

/-- The bytes of the texts of a class file that lies in some bytes. -/
def textsIn (c : ClassFile) (bytes : List UInt8) : List (List UInt8) :=
  rawTexts c.pool.entries.toList (bytes.drop (c.head.length + 2))

section

variable {c : Constant} {cs : List Constant} {bs rest : List UInt8}

theorem records_constantBytes (h : Records bs c) : Records (constantBytes c) c := by
  cases c with
  | unusable => exact h.elim
  | utf8 s =>
    obtain ⟨raw, ⟨hlength, hraw⟩, -⟩ := h
    exact ⟨_, ⟨(ModifiedUtf8.length_encode_le hraw).trans hlength, ModifiedUtf8.decode_encode s⟩, rfl⟩
  | methodHandle kind target => exact ⟨h.1, rfl⟩
  | _ => rfl

theorem length_constantBytes_le (h : Records bs c) : (constantBytes c).length ≤ bs.length := by
  cases c with
  | unusable => exact h.elim
  | utf8 s =>
    obtain ⟨raw, ⟨-, hraw⟩, rfl⟩ := h
    have := ModifiedUtf8.length_encode_le hraw
    simp only [constantBytes, List.length_cons, List.length_append, length_bytes2]
    omega
  | methodHandle kind target => exact h.2 ▸ le_rfl
  | _ => exact h ▸ le_rfl

theorem Pooled.constantBytes (h : Pooled cs bs) : Pooled cs (cs.flatMap constantBytes) := by
  induction h with
  | nil => exact .nil
  | @cons c bs rest cs hc _ ih =>
    rw [List.flatMap_append, flatMap_slots]
    exact .cons (records_constantBytes hc) ih

theorem Pooled.length_le (h : Pooled cs bs) : (cs.flatMap Assembly.constantBytes).length ≤ bs.length := by
  induction h with
  | nil => exact le_rfl
  | @cons c bs rest cs hc _ ih =>
    rw [List.flatMap_append, flatMap_slots, List.length_append, List.length_append]
    exact Nat.add_le_add (length_constantBytes_le hc) ih

/-- The texts in a record: it is the record that is written exactly where all of them are canonical. -/
theorem rawTexts_record (h : Records bs c) : ∃ raws : List (List UInt8),
    (∀ cs rest, rawTexts (c.slots ++ cs) (bs ++ rest) = raws ++ rawTexts cs rest) ∧
      (Assembly.constantBytes c = bs ↔ ∀ raw ∈ raws, ModifiedUtf8.Canonical raw) := by
  cases c with
  | unusable => exact h.elim
  | utf8 s =>
    obtain ⟨raw, ⟨hlength, hraw⟩, rfl⟩ := h
    refine ⟨[raw], fun cs rest => ?_, ?_⟩
    · have hcount : beNat ((bytes2 raw.length.toUInt16 ++ (raw ++ rest)).take 2) = raw.length := by
        rw [List.take_left' (length_bytes2 _), beNat_bytes2, toNat_toUInt16 hlength]
      have htake : (raw ++ rest).take raw.length = raw := List.take_left
      have hdrop : (bytes2 raw.length.toUInt16 ++ (raw ++ rest)).drop (2 + raw.length) = rest := by
        rw [← List.drop_drop, List.drop_left' (length_bytes2 _), List.drop_left]
      rw [List.cons_append, List.append_assoc]
      change _ :: rawTexts cs _ = raw :: rawTexts cs rest
      rw [List.drop_succ_cons, List.drop_zero, List.drop_succ_cons, hcount,
        List.drop_left' (length_bytes2 _), htake, Nat.add_right_comm 2 1, List.drop_succ_cons, hdrop]
    · rw [List.forall_mem_singleton, ← ModifiedUtf8.encode_eq_iff hraw]
      constructor
      · intro heq
        exact (List.append_inj (List.cons.inj heq).2 rfl).2
      · rintro rfl
        rfl
  | methodHandle kind target =>
    obtain ⟨-, rfl⟩ := h
    exact ⟨[], fun cs rest => congrArg (rawTexts cs) List.drop_left, by simp⟩
  | _ =>
    obtain rfl : bs = _ := h
    exact ⟨[], fun cs rest => congrArg (rawTexts cs) List.drop_left, by simp⟩

/-- The texts of a pool: they are all canonical exactly where the pool is spelt as it is written. -/
theorem Pooled.canonical_iff (h : Pooled cs bs) (rest : List UInt8) :
    cs.flatMap Assembly.constantBytes = bs ↔ ∀ raw ∈ rawTexts cs (bs ++ rest), ModifiedUtf8.Canonical raw := by
  induction h with
  | nil => simp [rawTexts]
  | @cons c first second cs hc hcs ih =>
    obtain ⟨raws, hraws, hfirst⟩ := rawTexts_record hc
    have hsplit : Assembly.constantBytes c ++ cs.flatMap Assembly.constantBytes = first ++ second ↔
        Assembly.constantBytes c = first ∧ cs.flatMap Assembly.constantBytes = second := by
      refine ⟨fun heq => List.append_inj heq ?_, fun ⟨h, h'⟩ => by rw [h, h']⟩
      -- no part is written with more bytes than it had, so that none has fewer
      have htotal := congrArg List.length heq
      have := length_constantBytes_le hc
      have := hcs.length_le
      rw [List.length_append, List.length_append] at htotal
      omega
    rw [List.flatMap_append, flatMap_slots, List.append_assoc, hraws, List.forall_mem_append, ← hfirst, ← ih,
      hsplit]

end

/-! ### Attributes -/

theorem NamedAttribute.length_bytes (a : NamedAttribute) : a.bytes.length = 6 + a.body.bytes.length := by
  cases a with
  | mk name body =>
    rw [NamedAttribute.bytes, List.length_append, List.length_append, length_bytes2, length_bytes4]
    rfl

theorem length_le_of_mem {α : Type} (spell : α → List UInt8) {l : List α} {a : α} (h : a ∈ l) :
    (spell a).length ≤ (l.flatMap spell).length := by
  rw [List.length_flatMap]
  exact List.single_le_sum (by simp) _ (List.mem_map_of_mem h)

/-- Attributes that fit at some depth fit at every one that their bytes leave room for. -/
theorem Fits.of_length {pool : ConstantPool} {depth depth' : Nat} {as : List NamedAttribute}
    (h : Fits pool depth as) (hlength : (as.flatMap NamedAttribute.bytes).length < depth') :
    Fits pool depth' as := by
  induction depth generalizing depth' as with
  | zero => exact h.elim
  | succ depth ih =>
    obtain ⟨hcount, hall⟩ := h
    obtain _ | depth' := depth'
    · exact absurd hlength (Nat.not_lt_zero _)
    refine ⟨hcount, fun a ha => ?_⟩
    obtain ⟨hbody, name, hname, hfits⟩ := hall a ha
    refine ⟨hbody, name, hname, ?_⟩
    have hle := length_le_of_mem NamedAttribute.bytes ha
    rw [NamedAttribute.length_bytes] at hle
    generalize a.body = body at hfits hle
    cases body with
    | code maxStack maxLocals code handlers nested =>
      obtain ⟨hcode, hpos, hmax, hhandlers, hnested⟩ := hfits
      refine ⟨hcode, hpos, hmax, hhandlers, ih hnested ?_⟩
      rw [Attribute.bytes, NamedAttribute.listBytes_eq] at hle
      simp only [List.length_append] at hle
      omega
    | _ => exact hfits

theorem Fit.of_length {c : ClassFile} {depth depth' : Nat} (h : c.Fit depth) (hlength : c.tail.length < depth') :
    c.Fit depth' := by
  have hmember {ms : List MemberInfo} (hms : (ms.flatMap MemberInfo.bytes).length < depth')
      (hfits : ∀ m ∈ ms, Fits c.pool depth m.attributes) (m : MemberInfo) (hm : m ∈ ms) :
      Fits c.pool depth' m.attributes := by
    have hle := length_le_of_mem MemberInfo.bytes hm
    rw [MemberInfo.bytes, List.length_append, length_countedBytes] at hle
    exact (hfits m hm).of_length (by omega)
  simp only [tail, List.length_append, length_countedBytes] at hlength
  exact ⟨h.major, h.interfaces, ⟨h.fields.1, hmember (by omega) h.fields.2⟩,
    ⟨h.methods.1, hmember (by omega) h.methods.2⟩, h.attributes.of_length (by omega)⟩

/-! ### Class files -/

theorem Spelt.bytes {pool : ConstantPool} {spelling : List UInt8} (h : pool.Spelt spelling) :
    pool.Spelt pool.bytes := by
  obtain ⟨hsize, cs, records, hcs, hpooled, -⟩ := h
  refine ⟨hsize, cs, _, hcs, hpooled.constantBytes, ?_⟩
  rw [ConstantPool.bytes, hcs]
  rfl

/-- A class file is read from its own bytes. -/
theorem parse_toBytes_eq_ok {c : ClassFile} {depth : Nat} {spelling : List UInt8}
    (hcheck : checkReferences c = .ok ()) (hfit : c.Fit depth) (hpool : c.pool.Spelt spelling) :
    parse c.toBytes = .ok c := by
  refine parse_eq_ok_iff.mpr ⟨hcheck, hfit.of_length ?_, c.pool.bytes, Spelt.bytes hpool, rfl⟩
  rw [toBytes, List.length_append]
  omega

/-- **Reading a class file loses nothing.** What was read is read from its own bytes again, and these are
the bytes it was read from exactly where all texts in them are canonical. -/
theorem parse_toBytes {bytes : List UInt8} {c : ClassFile} (h : parse bytes = .ok c) :
    parse c.toBytes = .ok c ∧
      (c.toBytes = bytes ↔ ∀ raw ∈ c.textsIn bytes, ModifiedUtf8.Canonical raw) := by
  obtain ⟨hcheck, hfit, spelling, hpool, hbytes⟩ := parse_eq_ok_iff.mp h
  refine ⟨parse_toBytes_eq_ok hcheck hfit hpool, ?_⟩
  obtain ⟨-, cs, records, hcs, hpooled, rfl⟩ := hpool
  have htexts : c.textsIn bytes = rawTexts cs (records ++ c.tail) := by
    rw [textsIn, hcs, hbytes, List.append_assoc, List.append_assoc, List.drop_length_add_append,
      List.drop_left' (length_bytes2 _)]
    rfl
  rw [htexts, ← hpooled.canonical_iff, toBytes, ConstantPool.bytes, hcs, hbytes, List.append_assoc,
    List.append_assoc, List.append_assoc, List.append_assoc, List.append_cancel_left_eq,
    List.append_cancel_left_eq, List.append_cancel_right_eq]
  rfl

/-- A class `A` with one method, which returns. -/
def onlyReturns : ClassFile where
  minor := 0
  major := 52
  pool := ⟨#[.unusable, .utf8 "A", .classRef 1, .utf8 "m", .utf8 "()V", .utf8 "Code", .utf8 "LineNumberTable"]⟩
  access := ⟨0x21⟩
  thisClass := 2
  superClass := 0
  interfaces := []
  fields := []
  methods := [⟨⟨1⟩, 3, 4, [.mk 5 (.code 0 1 [0xB1] [] [.mk 6 (.lineNumbers [⟨0, 7⟩])])]⟩]
  attributes := []

/-- Bytes of this class that spell its name with a group of two bytes. -/
def longSpelling : List UInt8 :=
  onlyReturns.head ++ [0, 7, 1, 0, 2, 0xC1, 0x81] ++ onlyReturns.pool.bytes.drop 6 ++ onlyReturns.tail

theorem parse_toBytes_onlyReturns : parse longSpelling = .ok onlyReturns ∧
    parse onlyReturns.toBytes = .ok onlyReturns ∧
      ¬ ∀ raw ∈ onlyReturns.textsIn longSpelling, ModifiedUtf8.Canonical raw := by
  have hparse : parse longSpelling = .ok onlyReturns := by cbv
  obtain ⟨hagain, hsame⟩ := parse_toBytes hparse
  have hother : onlyReturns.toBytes ≠ longSpelling := by decide +kernel
  exact ⟨hparse, hagain, fun hall => hother (hsame.mpr hall)⟩

end Jvm.ClassFile
