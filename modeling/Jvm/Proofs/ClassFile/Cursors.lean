import Mathlib
import Jvm.Proofs.ClassFile.Readers

/-! # The discipline of cursors

Whatever is read, a cursor answers in one of two ways: it takes as many bytes as it was asked for off the bytes
ahead, or it fails and stays (`taking`). From this follows what any number of cursors on the same bytes do that are
read from in any order, and split off others on the way (`disciplined`), and that values are read back from their
big-endian spellings, one behind the other (`readAll_encode`). -/

namespace Jvm.ClassFile

open Reader

/-! ### Values -/

/-- How a value is written. -/
inductive Encoding where
  | u1
  | u2
  | u4
  | i4
  | i8
  | f4
  | f8
  | bytes (length : Nat)
deriving DecidableEq, Repr

/-- A value; floats are their bit patterns. -/
inductive Datum where
  | u1 (v : UInt8)
  | u2 (v : UInt16)
  | u4 (v : UInt32)
  | i4 (v : Int32)
  | i8 (v : Int64)
  | f4 (bits : UInt32)
  | f8 (bits : UInt64)
  | bytes (bs : List UInt8)
deriving DecidableEq, Repr

/-- Reads a value. -/
def Encoding.read : Encoding → Reader Datum
  | u1 => do return .u1 (← Reader.u1)
  | u2 => do return .u2 (← Reader.u2)
  | u4 => do return .u4 (← Reader.u4)
  | i4 => do return .i4 (← Reader.i4)
  | i8 => do return .i8 (← Reader.i8)
  | f4 => do return .f4 (← Reader.u4)
  | f8 => do return .f8 (← Reader.i8).toUInt64
  | bytes n => do return .bytes (← Reader.bytes n)

/-- The number of bytes that a value takes. -/
def Encoding.width : Encoding → Nat
  | u1 => 1
  | u2 => 2
  | u4 | i4 | f4 => 4
  | i8 | f8 => 8
  | bytes n => n

/-- The number that bytes are the digits of, the most significant one first. -/
def bigEndian (bs : List UInt8) : Nat := Nat.ofDigits 256 (bs.reverse.map UInt8.toNat)

/-- The value that is written as some bytes. -/
def Encoding.decode (bs : List UInt8) : Encoding → Datum
  | u1 => .u1 (bigEndian bs).toUInt8
  | u2 => .u2 (bigEndian bs).toUInt16
  | u4 => .u4 (bigEndian bs).toUInt32
  | i4 => .i4 (bigEndian bs).toUInt32.toInt32
  | i8 => .i8 (bigEndian bs).toUInt64.toInt64
  | f4 => .f4 (bigEndian bs).toUInt32
  | f8 => .f8 (bigEndian bs).toUInt64
  | bytes _ => .bytes bs

/-- How a value is written. -/
def Datum.encoding : Datum → Encoding
  | u1 _ => .u1
  | u2 _ => .u2
  | u4 _ => .u4
  | i4 _ => .i4
  | i8 _ => .i8
  | f4 _ => .f4
  | f8 _ => .f8
  | bytes bs => .bytes bs.length

/-- The bytes of a value, the most significant one first; signed numbers are written as their complements. -/
def Datum.encode : Datum → List UInt8
  | u1 v => beBytes 1 v.toNat
  | u2 v => beBytes 2 v.toNat
  | u4 v => beBytes 4 v.toNat
  | i4 v => beBytes 4 v.toUInt32.toNat
  | i8 v => beBytes 8 v.toUInt64.toNat
  | f4 bits => beBytes 4 bits.toNat
  | f8 bits => beBytes 8 bits.toNat
  | bytes bs => bs

theorem bigEndian_cons (b : UInt8) (bs : List UInt8) :
    bigEndian (b :: bs) = bigEndian bs + 256 ^ bs.length * b.toNat := by
  simp [bigEndian, Nat.ofDigits_append]

theorem beNat_eq_bigEndian (bs : List UInt8) : beNat bs = bigEndian bs := by
  induction bs using List.reverseRecOn with
  | nil => rfl
  | append_singleton bs b ih =>
    rw [beNat_append, ih, bigEndian, bigEndian, List.reverse_append, List.reverse_singleton, List.singleton_append,
      List.map_cons, Nat.ofDigits_cons]
    ring

theorem beBytes_zero (n : Nat) : beBytes 0 n = [] := rfl

theorem beBytes_succ (count n : Nat) : beBytes (count + 1) n = (n / 256 ^ count).toUInt8 :: beBytes count n := rfl

@[simp] theorem length_beBytes (count n : Nat) : (beBytes count n).length = count := by
  induction count with
  | zero => rfl
  | succ count ih => rw [beBytes_succ, List.length_cons, ih]

theorem bigEndian_beBytes (count n : Nat) : bigEndian (beBytes count n) = n % 256 ^ count := by
  induction count with
  | zero => simp [beBytes_zero, bigEndian, Nat.mod_one]
  | succ count ih =>
    have hpow : 256 ^ (count + 1) = 256 ^ count * 256 := pow_succ ..
    rw [beBytes_succ, bigEndian_cons, ih, length_beBytes, Nat.toUInt8_eq, UInt8.toNat_ofNat', hpow]
    exact (Nat.mod_mul ..).symm

theorem Datum.length_encode (v : Datum) : v.encode.length = v.encoding.width := by
  cases v <;> simp [encode, encoding, Encoding.width]

/-- A value is the one that is written as its bytes. -/
theorem Datum.decode_encode (v : Datum) : v.encoding.decode v.encode = v := by
  cases v <;> simp [encoding, Encoding.decode, encode, bigEndian_beBytes]

/-! ### Taking bytes -/

/-- Takes some bytes off those ahead and makes a value of them, or fails and stays. -/
def taking {α : Type} (width : Nat) (f : List UInt8 → α) : Reader α := fun c =>
  if width ≤ c.remaining then .ok (f (c.rest.take width)) ⟨c.offset + width, c.rest.drop width⟩
  else .error (truncated width c) c

section

variable {α β : Type} {n : Nat}

theorem map_taking (f : List UInt8 → α) (g : α → β) :
    (do return g (← taking n f) : Reader β) = taking n fun bs => g (f bs) := by
  funext c
  change EStateM.bind (taking n f) (fun a => pure (g a)) c = _
  unfold EStateM.bind taking
  split_ifs <;> rfl

theorem splitOnto_eq (n : Nat) (bs : List UInt8) :
    splitOnto [] n bs = if n ≤ bs.length then some (bs.take n, bs.drop n) else none := by
  split_ifs with hn
  · exact splitOnto_eq_some.mpr ⟨bs.take n, rfl, (List.take_append_drop ..).symm, List.length_take_of_le hn⟩
  · refine Option.eq_none_iff_forall_not_mem.mpr fun ⟨taken, rest⟩ h => hn ?_
    obtain ⟨first, -, rfl, rfl⟩ := splitOnto_eq_some.mp h
    simp

theorem bytes_eq (n : Nat) : bytes n = taking n id := by
  funext c
  rw [bytes, splitOnto_eq, taking, Cursor.remaining]
  by_cases hn : n ≤ c.rest.length
  · rw [if_pos hn, if_pos hn]
    rfl
  · rw [if_neg hn, if_neg hn]

theorem u1_eq : Reader.u1 = taking 1 fun bs => (bigEndian bs).toUInt8 := by
  funext ⟨o, bs⟩
  cases bs with
  | nil => rfl
  | cons b bs => simp [Reader.u1, taking, Cursor.remaining, bigEndian]

theorem u2_eq : Reader.u2 = taking 2 fun bs => (bigEndian bs).toUInt16 := by
  funext ⟨o, bs⟩
  rcases bs with _ | ⟨a, _ | ⟨b, bs⟩⟩
  · rfl
  · rfl
  · have hread : (bigEndian [a, b]).toUInt16 = a.toUInt16 <<< 8 ||| b.toUInt16 := by
      rw [← beNat_eq_bigEndian, ← bytes2_ofBytes, beNat_bytes2, Nat.toUInt16_eq, UInt16.ofNat_toNat]
    simp [Reader.u2, taking, Cursor.remaining, hread]

theorem u4_eq : Reader.u4 = taking 4 fun bs => (bigEndian bs).toUInt32 := by
  unfold Reader.u4
  rw [bytes_eq, map_taking]
  simp only [id, beNat_eq_bigEndian]

theorem i8_eq : Reader.i8 = taking 8 fun bs => (bigEndian bs).toUInt64.toInt64 := by
  unfold Reader.i8 Reader.u8
  rw [bytes_eq, map_taking, map_taking]
  simp only [id, beNat_eq_bigEndian]

theorem sub_eq (n : Nat) : sub n = taking n Cursor.ofBytes := by
  unfold sub
  rw [bytes_eq, map_taking]
  rfl

/-- **A read takes the bytes of a value, or fails and stays.** -/
theorem Encoding.read_eq (k : Encoding) : k.read = taking k.width k.decode := by
  cases k with
  | u1 => rw [read, u1_eq, map_taking]; rfl
  | u2 => rw [read, u2_eq, map_taking]; rfl
  | u4 => rw [read, u4_eq, map_taking]; rfl
  | i4 => rw [read, Reader.i4, u4_eq, map_taking, map_taking]; rfl
  | i8 => rw [read, i8_eq, map_taking]; rfl
  | f4 => rw [read, u4_eq, map_taking]; rfl
  | f8 => rw [read, i8_eq, map_taking]; rfl
  | bytes n => rw [read, bytes_eq, map_taking]; rfl

end

/-! ### Cursors on the same bytes -/

/-- What is taken off the bytes ahead of a cursor. -/
inductive Cut where
  | value (k : Encoding)
  | part (length : Nat)
deriving DecidableEq, Repr

namespace Cut

/-- Takes something: the value, if it is one, and the cursors that are split off. -/
def run : Cut → Reader (Option Datum × List Cursor)
  | value k => do return (some (← k.read), [])
  | part n => do return (none, [← sub n])

/-- The number of bytes that are taken. -/
def width : Cut → Nat
  | value k => k.width
  | part n => n

/-- What is made of the bytes that are taken. -/
def result (bs : List UInt8) : Cut → Option Datum × List Cursor
  | value k => (some (k.decode bs), [])
  | part _ => (none, [.ofBytes bs])

theorem run_eq (q : Cut) : q.run = taking q.width q.result := by
  cases q with
  | value k => rw [run, k.read_eq, map_taking]; rfl
  | part n => rw [run, sub_eq, map_taking]; rfl

end Cut

/-- Takes something with one of some cursors. Those that are split off come behind the others. -/
def cut (cursors : List Cursor) (i : Nat) (q : Cut) : List Cursor :=
  match cursors[i]? with
  | none => cursors
  | some c =>
    match q.run c with
    | .ok (_, opened) c => cursors.set i c ++ opened
    | .error _ c => cursors.set i c

/-- The cursors on some bytes after one thing has been taken after the other, each with the cursor of a number:
the first one, and those that were split off. -/
def cursorsAfter (data : List UInt8) (cuts : List (Nat × Cut)) : List Cursor :=
  cuts.foldl (fun cursors (i, q) => cut cursors i q) [.ofBytes data]

/-- Whether a cursor stands somewhere in some bytes, and has all those behind it ahead and no others. -/
def Cursor.Stands (c : Cursor) (bs : List UInt8) : Prop := c.offset ≤ bs.length ∧ c.rest = bs.drop c.offset

section

variable {cursors : List Cursor} {i j : Nat} {c : Cursor} {q : Cut} {bs data : List UInt8}

theorem cut_of_le (hc : cursors[i]? = some c) (hq : q.width ≤ c.remaining) : cut cursors i q =
    cursors.set i ⟨c.offset + q.width, c.rest.drop q.width⟩ ++ (q.result (c.rest.take q.width)).2 := by
  simp only [cut, hc, q.run_eq, taking, if_pos hq]

theorem cut_of_lt (hc : cursors[i]? = some c) (hq : c.remaining < q.width) : cut cursors i q = cursors := by
  obtain ⟨hi, rfl⟩ := List.getElem?_eq_some_iff.mp hc
  simp only [cut, hc, q.run_eq, taking, if_neg (not_le.mpr hq), List.set_getElem_self]

theorem Cursor.stands_ofBytes (bs : List UInt8) : (ofBytes bs).Stands bs := ⟨Nat.zero_le _, rfl⟩

theorem Cursor.Stands.remaining (h : c.Stands bs) : c.offset + c.remaining = bs.length := by
  rw [Cursor.remaining, h.2, List.length_drop]
  exact Nat.add_sub_cancel' h.1

theorem Cursor.Stands.move (h : c.Stands bs) {n : Nat} (hn : n ≤ c.remaining) :
    Cursor.Stands ⟨c.offset + n, c.rest.drop n⟩ bs := by
  have hlength := h.remaining
  refine ⟨by dsimp only; omega, ?_⟩
  dsimp only
  rw [h.2, List.drop_drop]

/-- A cursor stays in the bytes it stands in, whatever is taken with it or another one. -/
theorem exists_stands_cut (hc : cursors[j]? = some c) (hstands : c.Stands bs) (i : Nat) (q : Cut) :
    ∃ c', (cut cursors i q)[j]? = some c' ∧ c'.Stands bs := by
  cases hi : cursors[i]? with
  | none => exact ⟨c, by simp only [cut, hi, hc], hstands⟩
  | some d =>
    by_cases hq : q.width ≤ d.remaining
    · have hj := (List.getElem?_eq_some_iff.mp hc).1
      rw [cut_of_le hi hq, List.getElem?_append_left (by simpa using hj), List.getElem?_set]
      split_ifs with hij hlt
      · subst hij
        cases hi.symm.trans hc
        exact ⟨_, rfl, hstands.move hq⟩
      · exact absurd hj (hij ▸ hlt)
      · exact ⟨c, hc, hstands⟩
    · exact ⟨c, by rw [cut_of_lt hi (not_le.mp hq), hc], hstands⟩

/-- The cursors stand in parts of the bytes, and so do those that are split off. -/
theorem stands_cut (h : ∀ c ∈ cursors, ∃ bs, bs <:+: data ∧ c.Stands bs) (i : Nat) (q : Cut) :
    ∀ c ∈ cut cursors i q, ∃ bs, bs <:+: data ∧ c.Stands bs := by
  cases hi : cursors[i]? with
  | none => simpa only [cut, hi] using h
  | some d =>
    by_cases hq : q.width ≤ d.remaining
    · obtain ⟨bs, hbs, hd⟩ := h d (List.mem_of_getElem? hi)
      intro c hc
      rw [cut_of_le hi hq, List.mem_append] at hc
      rcases hc with hc | hc
      · rcases List.mem_or_eq_of_mem_set hc with hc | rfl
        · exact h c hc
        · exact ⟨bs, hbs, hd.move hq⟩
      · cases q with
        | value k => cases hc
        | part n =>
          obtain rfl := List.mem_singleton.mp hc
          refine ⟨_, ?_, Cursor.stands_ofBytes _⟩
          rw [hd.2]
          exact ((List.take_prefix ..).isInfix.trans (List.drop_suffix ..).isInfix).trans hbs
    · rw [cut_of_lt hi (not_le.mp hq)]
      exact h

end

theorem cursorsAfter_concat (data : List UInt8) (cuts : List (Nat × Cut)) (i : Nat) (q : Cut) :
    cursorsAfter data (cuts ++ [(i, q)]) = cut (cursorsAfter data cuts) i q := by
  rw [cursorsAfter, List.foldl_append]
  rfl

theorem exists_stands_after {data bs : List UInt8} {cuts : List (Nat × Cut)} {i : Nat} {c : Cursor}
    (hc : (cursorsAfter data cuts)[i]? = some c) (hstands : c.Stands bs) (more : List (Nat × Cut)) :
    ∃ c', (cursorsAfter data (cuts ++ more))[i]? = some c' ∧ c'.Stands bs := by
  induction more using List.reverseRecOn with
  | nil => exact ⟨c, by rwa [List.append_nil], hstands⟩
  | append_singleton more last ih =>
    obtain ⟨c', hc', hstands'⟩ := ih
    rw [← List.append_assoc, cursorsAfter_concat]
    exact exists_stands_cut hc' hstands' last.1 last.2

theorem stands_after (data : List UInt8) (cuts : List (Nat × Cut)) :
    ∀ c ∈ cursorsAfter data cuts, ∃ bs, bs <:+: data ∧ c.Stands bs := by
  induction cuts using List.reverseRecOn with
  | nil =>
    intro c hc
    obtain rfl := List.mem_singleton.mp hc
    exact ⟨data, List.infix_rfl, Cursor.stands_ofBytes data⟩
  | append_singleton cuts last ih =>
    rw [cursorsAfter_concat]
    exact stands_cut ih last.1 last.2

/-- What is to be said of the cursors on some bytes after any number of things have been taken with them. -/
structure Disciplined (data : List UInt8) (cuts : List (Nat × Cut)) : Prop where
  stands : ∀ c ∈ cursorsAfter data cuts, ∃ bs, bs <:+: data ∧ c.Stands bs
  sees : ∀ (i : Nat) (bs : List UInt8), (cursorsAfter data cuts)[i]? = some (.ofBytes bs) → ∀ more,
    ∃ c, (cursorsAfter data (cuts ++ more))[i]? = some c ∧ c.Stands bs
  refuses : ∀ (i : Nat) (c : Cursor) (q : Cut), (cursorsAfter data cuts)[i]? = some c → c.remaining < q.width →
    q.run c = .error (truncated q.width c) c ∧ cursorsAfter data (cuts ++ [(i, q)]) = cursorsAfter data cuts
  reads : ∀ (i : Nat) (c : Cursor) (k : Encoding), (cursorsAfter data cuts)[i]? = some c → k.width ≤ c.remaining →
    k.read c = .ok (k.decode (c.rest.take k.width)) ⟨c.offset + k.width, c.rest.drop k.width⟩ ∧
      cursorsAfter data (cuts ++ [(i, .value k)]) =
        (cursorsAfter data cuts).set i ⟨c.offset + k.width, c.rest.drop k.width⟩
  -- A part that fits is split off with a cursor that begins with the next bytes, and the cursor it was split off
  -- from moves behind them.
  splits : ∀ (i : Nat) (c : Cursor) (n : Nat), (cursorsAfter data cuts)[i]? = some c → n ≤ c.remaining →
    sub n c = .ok (.ofBytes (c.rest.take n)) ⟨c.offset + n, c.rest.drop n⟩ ∧
      cursorsAfter data (cuts ++ [(i, .part n)]) =
        (cursorsAfter data cuts).set i ⟨c.offset + n, c.rest.drop n⟩ ++ [.ofBytes (c.rest.take n)]

theorem disciplined (data : List UInt8) (cuts : List (Nat × Cut)) : Disciplined data cuts := by
  refine ⟨stands_after data cuts, fun i bs hi more => ?_, fun i c q hc hq => ⟨?_, ?_⟩, fun i c k hc hk => ⟨?_, ?_⟩,
    fun i c n hc hn => ⟨?_, ?_⟩⟩
  · exact exists_stands_after hi (Cursor.stands_ofBytes bs) more
  · rw [q.run_eq, taking, if_neg (not_le.mpr hq)]
  · rw [cursorsAfter_concat, cut_of_lt hc hq]
  · rw [k.read_eq, taking, if_pos hk]
  · rw [cursorsAfter_concat, cut_of_le (q := .value k) hc hk]
    exact List.append_nil _
  · rw [sub_eq, taking, if_pos hn]
  · rw [cursorsAfter_concat, cut_of_le (q := .part n) hc hn]
    rfl

/-! ### Reading back -/

/-- Reads a value of each of some encodings. -/
def readAll : List Encoding → Reader (List Datum)
  | [] => pure []
  | k :: rest => do
    let v ← k.read
    return v :: (← readAll rest)

theorem read_encode (v : Datum) (o : Nat) (rest : List UInt8) :
    v.encoding.read ⟨o, v.encode ++ rest⟩ = .ok v ⟨o + v.encode.length, rest⟩ := by
  have hfits : v.encode.length ≤ (Cursor.mk o (v.encode ++ rest)).remaining := by simp [Cursor.remaining]
  rw [v.encoding.read_eq, taking, ← v.length_encode, if_pos hfits]
  dsimp only
  rw [List.take_left, List.drop_left, v.decode_encode]

theorem readAll_encode (vs : List Datum) (o : Nat) (rest : List UInt8) :
    readAll (vs.map Datum.encoding) ⟨o, vs.flatMap Datum.encode ++ rest⟩ =
      .ok vs ⟨o + (vs.flatMap Datum.encode).length, rest⟩ := by
  induction vs generalizing o with
  | nil => rfl
  | cons v vs ih =>
    rw [List.map_cons, readAll, List.flatMap_cons, List.append_assoc]
    refine bind_eq_ok.mpr ⟨v, _, read_encode v o _, bind_eq_ok.mpr ⟨vs, _, ih _, ?_⟩⟩
    rw [List.length_append, Nat.add_assoc]
    rfl

/-- **Cursors keep to their bytes, and values are read back from their spellings.** -/
theorem cursor_laws : (∀ data cuts, Disciplined data cuts) ∧ ∀ vs : List Datum,
    readAll (vs.map Datum.encoding) (.ofBytes (vs.flatMap Datum.encode)) =
      .ok vs ⟨(vs.flatMap Datum.encode).length, []⟩ := by
  refine ⟨disciplined, fun vs => ?_⟩
  have hread := readAll_encode vs 0 []
  rwa [List.append_nil, Nat.zero_add] at hread

end Jvm.ClassFile
