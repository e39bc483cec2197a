import Mathlib
import Jvm.Assembly.Pool
import Jvm.Bytecode.Decode

/-! # Reading what was written

The readers of the decoder, run on the bytes that a writer spells: `Yields` says that a reader takes
exactly some bytes from an offset on, whatever follows them, and what it makes of them. -/

namespace Jvm.Bytecode

open ClassFile Assembly

/-- Whether a reader at an offset takes exactly some bytes and makes a value of them. -/
def Yields {α : Type} (o : Nat) (x : Operands α) (bs : List UInt8) (a : α) : Prop :=
  ∀ rest, x ⟨o, bs ++ rest⟩ = .ok a ⟨o + bs.length, rest⟩

section

variable {α β : Type} {o o' : Nat} {x : Operands α} {bs bs' : List UInt8} {a : α} {b : β}

theorem yields_pure (o : Nat) (a : α) : Yields o (pure a) [] a := fun _ => rfl

theorem Yields.bind {f : α → Operands β} (hx : Yields o x bs a) (ho : o' = o + bs.length)
    (hf : Yields o' (f a) bs' b) : Yields o (x >>= f) (bs ++ bs') b := by
  intro rest
  subst ho
  change EStateM.bind x f _ = _
  rw [EStateM.bind, List.append_assoc, hx, List.length_append, ← Nat.add_assoc]
  exact hf rest

/-- A reader whose value is only passed on. -/
theorem Yields.map (f : α → β) (hx : Yields o x bs a) :
    Yields o (do return f (← x)) bs (f a) := by
  rw [← List.append_nil bs]
  exact hx.bind rfl (yields_pure _ _)

/-- A check that passes. -/
theorem yields_else {p : Prop} [Decidable p] {y : Operands α} (hp : ¬ p) (hy : Yields o y bs a) :
    Yields o (if p then x else y) bs a := by
  rw [if_neg hp]
  exact hy

theorem yields_need (s : Site) {n : Nat} {f : Unit → Operands β} (hn : n ≤ bs.length)
    (hf : Yields o (f ()) bs b) : Yields o (s.need n >>= f) bs b := by
  intro rest
  have henough : ¬ bs.length + rest.length < n := by omega
  have hneed : s.need n ⟨o, bs ++ rest⟩ = .ok () ⟨o, bs ++ rest⟩ := by
    simp [Site.need, get, getThe, MonadStateOf.get, EStateM.get, bind, EStateM.bind,
      Cursor.remaining, henough, pure, EStateM.pure]
  change EStateM.bind (s.need n) f _ = _
  rw [EStateM.bind, hneed]
  exact hf rest

end

variable (s : Site) (o : Nat)

/-! ### Numbers -/

theorem yields_u1 (b : UInt8) : Yields o s.u1 [b] b := fun _ => rfl

/-- A byte, and what is read behind it. -/
theorem yields_byte {β : Type} {b : UInt8} {f : UInt8 → Operands β} {bs : List UInt8} {c : β}
    (hf : Yields (o + 1) (f b) bs c) : Yields o (s.u1 >>= f) (b :: bs) c :=
  Yields.bind (yields_u1 s o b) rfl hf

theorem yields_i1 (b : UInt8) : Yields o s.i1 [b] b.toInt8 := (yields_u1 s o b).map _

theorem toUInt16_bytes (n : UInt16) :
    (n >>> 8).toUInt8.toUInt16 <<< 8 ||| n.toUInt8.toUInt16 = n := by
  apply UInt16.eq_of_toBitVec_eq
  apply BitVec.eq_of_getLsbD_eq
  intro i hi
  simp only [UInt16.toBitVec_or, UInt16.toBitVec_shiftLeft, UInt8.toBitVec_toUInt16,
    UInt16.toBitVec_toUInt8, UInt16.toBitVec_shiftRight]
  by_cases h : i < 8
  · simp [hi, h]
  · have hlow : i - 8 < 8 := by omega
    have hsame : 8 + (i - 8) = i := by omega
    simp [hi, h, hlow, hsame]

theorem toUInt32_halves (n : UInt32) :
    (n >>> 16).toUInt16.toUInt32 <<< 16 ||| n.toUInt16.toUInt32 = n := by
  apply UInt32.eq_of_toBitVec_eq
  apply BitVec.eq_of_getLsbD_eq
  intro i hi
  simp only [UInt32.toBitVec_or, UInt32.toBitVec_shiftLeft, UInt16.toBitVec_toUInt32,
    UInt32.toBitVec_toUInt16, UInt32.toBitVec_shiftRight]
  by_cases h : i < 16
  · simp [hi, h]
  · have hlow : i - 16 < 16 := by omega
    have hsame : 16 + (i - 16) = i := by omega
    simp [hi, h, hlow, hsame]

/-- The bytes of a 32-bit number are those of its halves. -/
theorem bytes4_eq (n : UInt32) : bytes4 n = bytes2 (n >>> 16).toUInt16 ++ bytes2 n.toUInt16 := by
  have h₁ : (n >>> 24).toUInt8 = ((n >>> 16).toUInt16 >>> 8).toUInt8 := by
    apply UInt8.eq_of_toBitVec_eq
    apply BitVec.eq_of_getLsbD_eq
    intro i hi
    have hlow : 8 + i < 16 := by omega
    have hsame : 16 + (8 + i) = 24 + i := by omega
    simp [hi, hlow, hsame]
  have h₂ : (n >>> 16).toUInt8 = (n >>> 16).toUInt16.toUInt8 := by
    simp
  have h₃ : (n >>> 8).toUInt8 = (n.toUInt16 >>> 8).toUInt8 := by
    apply UInt8.eq_of_toBitVec_eq
    apply BitVec.eq_of_getLsbD_eq
    intro i hi
    have hlow : 8 + i < 16 := by omega
    simp [hi, hlow]
  rw [bytes4, bytes2, bytes2, h₁, h₂, h₃]
  simp

theorem yields_u2 (n : UInt16) : Yields o s.u2 (bytes2 n) n := by
  have h := (yields_u1 s (o + 1) n.toUInt8).map fun b =>
    (n >>> 8).toUInt8.toUInt16 <<< 8 ||| b.toUInt16
  rw [toUInt16_bytes] at h
  exact Yields.bind (f := fun a : UInt8 => do return a.toUInt16 <<< 8 ||| (← s.u1).toUInt16)
    (yields_u1 s o (n >>> 8).toUInt8) rfl h

theorem yields_i2 (n : UInt16) : Yields o s.i2 (bytes2 n) n.toInt16 := (yields_u2 s o n).map _

theorem yields_i4 (n : UInt32) : Yields o s.i4 (bytes4 n) n.toInt32 := by
  have h := (yields_u2 s (o + 2) n.toUInt16).map fun b =>
    ((n >>> 16).toUInt16.toUInt32 <<< 16 ||| b.toUInt32).toInt32
  rw [toUInt32_halves] at h
  rw [bytes4_eq]
  exact Yields.bind (f := fun a : UInt16 => do return (a.toUInt32 <<< 16 ||| (← s.u2).toUInt32).toInt32)
    (yields_u2 s o (n >>> 16).toUInt16) rfl h

/-! ### Distances -/

variable {s}

/-- The bytes of a 32-bit distance. -/
def farBytes (base target : Nat) : List UInt8 :=
  bytes4 (Int32.ofInt ((target : Int) - base)).toUInt32

theorem yields_at {t : Nat} {distance : Int} (hd : distance = (t : Int) - s.pc) (ht : t < s.length) :
    Yields o (s.at_ distance) [] t := by
  intro rest
  have hlow : ¬ (s.pc : Int) + distance < 0 := by omega
  have hhigh : ¬ (s.length : Int) ≤ s.pc + distance := by omega
  have ht' : ((s.pc : Int) + distance).toNat = t := by omega
  simp only [Site.at_, hlow, hhigh, decide_false, Bool.or_self, Bool.false_eq_true, if_false, ht']
  rfl

theorem yields_far {t : Nat} (ht : t < s.length) (hsmall : s.length ≤ 65535)
    (hpc : s.pc ≤ s.length) : Yields o s.far (farBytes s.pc t) t := by
  rw [← List.append_nil (farBytes s.pc t)]
  refine (yields_i4 s o _).bind rfl (yields_at _ ?_ ht)
  rw [Int32.toInt32_toUInt32, Int32.toInt_ofInt_of_le (by norm_num; omega) (by norm_num; omega)]

theorem yields_near {t : Nat} (ht : t < s.length) (hlow : -32768 ≤ (t : Int) - s.pc)
    (hhigh : (t : Int) - s.pc ≤ 32767) :
    Yields o s.near (bytes2 (Int16.ofInt ((t : Int) - s.pc)).toUInt16) t := by
  rw [← List.append_nil (bytes2 _)]
  refine (yields_i2 s o _).bind rfl (yields_at _ ?_ ht)
  rw [Int16.toInt16_toUInt16, Int16.toInt_ofInt_of_le (by norm_num; omega) (by norm_num; omega)]

/-! ### Switches -/

theorem yields_skip (l : List Nat) :
    Yields o (forIn l PUnit.unit fun _ _ => do
      let _ ← s.u1
      pure (ForInStep.yield PUnit.unit)) (List.replicate l.length 0) PUnit.unit := by
  induction l generalizing o with
  | nil => exact yields_pure o _
  | cons a l ih =>
    rw [List.forIn_cons]
    exact ((yields_u1 s o 0).map fun _ => ForInStep.yield PUnit.unit).bind rfl (ih (o + 1))

theorem yields_skipPadding :
    Yields o s.skipPadding (List.replicate ((4 - o % 4) % 4) 0) () := by
  have h := (yields_skip (s := s) o (List.range ((4 - o % 4) % 4))).map fun _ => PUnit.unit
  rw [List.length_range] at h
  exact h

theorem yields_farList {targets : List Nat} (ht : ∀ t ∈ targets, t < s.length)
    (hsmall : s.length ≤ 65535) (hpc : s.pc ≤ s.length) (read : List Nat) :
    Yields o (s.farList read targets.length) (targets.flatMap (farBytes s.pc))
      (read.reverse ++ targets) := by
  induction targets generalizing o read with
  | nil =>
    rw [List.append_nil]
    exact yields_pure o _
  | cons t targets ih =>
    obtain ⟨hfirst, hrest⟩ := List.forall_mem_cons.mp ht
    have h := ih (o + (farBytes s.pc t).length) hrest (t :: read)
    rw [List.reverse_cons, List.append_assoc] at h
    exact Yields.bind (f := fun t => s.farList (t :: read) targets.length)
      (yields_far o hfirst hsmall hpc) rfl h

theorem yields_pairList {pairs : List (Int32 × Nat)} (ht : ∀ p ∈ pairs, p.2 < s.length)
    (hsmall : s.length ≤ 65535) (hpc : s.pc ≤ s.length) (read : Array (Int32 × Nat))
    (hsorted : (read.toList ++ pairs).Pairwise fun a b => a.1 < b.1) :
    Yields o (s.pairList read pairs.length)
      (pairs.flatMap fun p => bytes4 p.1.toUInt32 ++ farBytes s.pc p.2)
      (read.toList ++ pairs).toArray := by
  induction pairs generalizing o read with
  | nil =>
    rw [List.append_nil]
    exact yields_pure o _
  | cons p pairs ih =>
    obtain ⟨key, t⟩ := p
    obtain ⟨hfirst, hrest⟩ := List.forall_mem_cons.mp ht
    have hnext := ih (o + (bytes4 key.toUInt32).length + (farBytes s.pc t).length) hrest
      (read.push (key, t)) (by simpa using hsorted)
    have hback (previous : Int32 × Nat) (h : read.back? = some previous) : ¬ key ≤ previous.1 := by
      have hmem : previous ∈ read.toList := Array.mem_toList_iff.mpr (Array.mem_of_back? h)
      have hlt : previous.1 < key :=
        (List.pairwise_append.mp hsorted).2.2 previous hmem (key, t) List.mem_cons_self
      exact Int32.not_le.mpr hlt
    rw [List.length_cons, Site.pairList, List.flatMap_cons, List.append_assoc]
    refine (yields_i4 s o _).bind rfl ?_
    rw [Int32.toInt32_toUInt32]
    have hread := Yields.bind (f := fun t => s.pairList (read.push (key, t)) pairs.length)
      (yields_far (o + (bytes4 key.toUInt32).length) hfirst hsmall hpc) rfl hnext
    rw [show ((read.push (key, t)).toList ++ pairs) = read.toList ++ (key, t) :: pairs by simp]
      at hread
    rcases h : read.back? with _ | previous
    · exact hread
    · exact yields_else (hback previous h) hread

theorem length_farBytes (base target : Nat) : (farBytes base target).length = 4 := rfl

theorem yields_rangeTable {default : Nat} {low high : Int32} {targets : List Nat}
    (hdefault : default < s.length) (htargets : ∀ t ∈ targets, t < s.length)
    (hhigh : high.toInt = low.toInt + targets.length - 1) (hne : targets ≠ [])
    (hsmall : s.length ≤ 65535) (hpc : s.pc ≤ s.length) :
    Yields o s.rangeTable (List.replicate ((4 - o % 4) % 4) 0 ++ (farBytes s.pc default ++
      (bytes4 low.toUInt32 ++ (bytes4 high.toUInt32 ++ targets.flatMap (farBytes s.pc)))))
      ⟨default, .range low targets⟩ := by
  have hpos : 0 < targets.length := List.length_pos_iff.mpr hne
  have hle : ¬ high < low := by
    rw [Int32.lt_iff_toInt_lt]
    omega
  have hcount : (high.toInt - low.toInt + 1).toNat = targets.length := by omega
  refine (yields_skipPadding o).bind rfl ((yields_far _ hdefault hsmall hpc).bind rfl
    ((yields_i4 s _ _).bind rfl ((yields_i4 s _ _).bind rfl ?_)))
  rw [Int32.toInt32_toUInt32, Int32.toInt32_toUInt32, hcount]
  refine yields_else hle (yields_need s ?_ ?_)
  · simp [List.length_flatMap, length_farBytes]
  · exact (yields_farList _ htargets hsmall hpc []).map fun l =>
      SwitchTable.mk default (.range low l)

theorem yields_pairTable {default : Nat} {pairs : List (Int32 × Nat)}
    (hdefault : default < s.length) (htargets : ∀ p ∈ pairs, p.2 < s.length)
    (hsorted : pairs.Pairwise fun a b => a.1 < b.1) (hcount : pairs.length ≤ 65535)
    (hsmall : s.length ≤ 65535) (hpc : s.pc ≤ s.length) :
    Yields o s.pairTable (List.replicate ((4 - o % 4) % 4) 0 ++ (farBytes s.pc default ++
      (bytes4 pairs.length.toUInt32 ++
        pairs.flatMap fun p => bytes4 p.1.toUInt32 ++ farBytes s.pc p.2)))
      ⟨default, .pairs pairs.toArray⟩ := by
  have hint : pairs.length.toUInt32.toInt32.toInt = pairs.length := by
    rw [Nat.toUInt32_eq, UInt32.toInt32_ofNat', Int32.toInt_ofNat_of_lt (by omega)]
  have hnonneg : ¬ pairs.length.toUInt32.toInt32 < 0 := by
    rw [Int32.lt_iff_toInt_lt, hint]
    simp
  refine (yields_skipPadding o).bind rfl ((yields_far _ hdefault hsmall hpc).bind rfl
    ((yields_i4 s _ _).bind rfl ?_))
  rw [hint, Int.toNat_natCast]
  refine yields_else hnonneg (yields_need s ?_ ?_)
  · simp [List.length_flatMap, length_farBytes, bytes4]
  · exact (yields_pairList _ htargets hsmall hpc #[] (by simpa using hsorted)).map fun l =>
      SwitchTable.mk default (.pairs l)

/-! ### Instructions -/

/-- An instruction is read as the form of its opcode says. -/
theorem yields_instruction {k : Nat} {opcode : UInt8} {f : Form} {bs : List UInt8}
    {a : Operation × Option SwitchTable} (hform : InstructionSet.form? opcode = some f)
    (h : Yields (o + 1) (s.operands k f) bs a) : Yields o (s.instruction k) (opcode :: bs) a := by
  unfold Site.instruction
  refine yields_byte s o ?_
  rw [hform]
  exact h

/-- An instruction behind `wide` is read as the form of its opcode says. -/
theorem yields_wide {k : Nat} {bs : List UInt8} {op : Operation}
    (h : Yields (o + 1) s.widened bs op) : Yields o (s.instruction k) (0xC4 :: bs) (op, none) :=
  yields_instruction o (f := .wide) (by cbv) (h.map fun op => (op, none))

end Jvm.Bytecode
