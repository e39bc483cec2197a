import Mathlib.Data.List.Forall2
import Jvm.Bytecode.Decode

/-! # The layout of code

What code says at an offset, read off its bytes alone: the numbers that stand there (`byteAt`, `half`,
`word`), how long the instruction is that begins there (`encodedLength`), and the offsets that it names
(`namedOffsets`). `Reads` is what a reader of operands does to a cursor into the code: the lemmas go from
the single byte (`reads_u1`) to a whole instruction (`reads_instruction`). -/

namespace Jvm.Bytecode

open ClassFile

/-! ### Numbers -/

/-- The byte at an offset; 0 behind the end. -/
def byteAt (code : List UInt8) (i : Nat) : UInt8 := code[i]?.getD 0

/-- The 16-bit number at an offset. -/
def half (code : List UInt8) (i : Nat) : UInt16 :=
  (byteAt code i).toUInt16 <<< 8 ||| (byteAt code (i + 1)).toUInt16

/-- The 32-bit number at an offset. -/
def word (code : List UInt8) (i : Nat) : Int32 :=
  ((half code i).toUInt32 <<< 16 ||| (half code (i + 2)).toUInt32).toInt32

/-- The offset where the numbers of a switch at `pc` begin: the next multiple of four. -/
def aligned (pc : Nat) : Nat := pc + 1 + (4 - (pc + 1) % 4) % 4

/-- The number of keys of the `tableswitch` at `pc`. -/
def rangeCount (code : List UInt8) (pc : Nat) : Nat :=
  ((word code (aligned pc + 8)).toInt - (word code (aligned pc + 4)).toInt + 1).toNat

/-- The number of pairs of the `lookupswitch` at `pc`. -/
def pairCount (code : List UInt8) (pc : Nat) : Nat := (word code (aligned pc + 4)).toInt.toNat

/-- The number of bytes of an instruction of a form at `pc`. -/
def Form.encodedLength (code : List UInt8) (pc : Nat) : Form → Nat
  | plain _ => 1
  | pushByte | ldc | load _ | store _ | ret | newArray => 2
  | pushShort | ldcWide | ldc2 | iinc | jump _ | pooled _ => 3
  | newMultiArray => 4
  | farJump _ | invokeInterface | invokeDynamic => 5
  | wide => if InstructionSet.form? (byteAt code (pc + 1)) = some iinc then 6 else 4
  | tableSwitch => aligned pc + 12 + 4 * rangeCount code pc - pc
  | lookupSwitch => aligned pc + 8 + 8 * pairCount code pc - pc

/-- The offsets that an instruction of a form at `pc` names: the target of a jump, or the default of a
switch and then the target of each case. -/
def Form.namedOffsets (code : List UInt8) (pc : Nat) : Form → List Int
  | jump _ => [pc + (half code (pc + 1)).toInt16.toInt]
  | farJump _ => [pc + (word code (pc + 1)).toInt]
  | tableSwitch =>
    (pc + (word code (aligned pc)).toInt) ::
      (List.range (rangeCount code pc)).map fun k =>
        pc + (word code (aligned pc + 12 + 4 * k)).toInt
  | lookupSwitch =>
    (pc + (word code (aligned pc)).toInt) ::
      (List.range (pairCount code pc)).map fun k =>
        pc + (word code (aligned pc + 8 + 8 * k + 4)).toInt
  | _ => []

/-- The number of bytes of the instruction at `pc`. -/
def encodedLength (code : List UInt8) (pc : Nat) : Nat :=
  ((InstructionSet.form? (byteAt code pc)).map (Form.encodedLength code pc)).getD 1

/-- The offsets that the instruction at `pc` names. -/
def namedOffsets (code : List UInt8) (pc : Nat) : List Int :=
  ((InstructionSet.form? (byteAt code pc)).map (Form.namedOffsets code pc)).getD []

/-- Whether the keys of the pairs of a table increase. -/
def SwitchTable.Sorted (t : SwitchTable) : Prop :=
  match t.cases with
  | .range _ _ => True
  | .pairs pairs => pairs.toList.Pairwise fun a b => a.1 < b.1

theorem encodedLength_pos (code : List UInt8) (pc : Nat) : 0 < encodedLength code pc := by
  unfold encodedLength
  rcases InstructionSet.form? (byteAt code pc) with _ | form
  · exact Nat.one_pos
  · cases form <;> simp only [Form.encodedLength, aligned, Option.map_some, Option.getD_some] <;>
      first | omega | (split <;> omega)

theorem encodedLength_of_form {code : List UInt8} {pc : Nat} {form : Form}
    (hform : InstructionSet.form? (byteAt code pc) = some form) :
    encodedLength code pc = form.encodedLength code pc := by
  unfold encodedLength
  rw [hform]
  rfl

theorem namedOffsets_of_form {code : List UInt8} {pc : Nat} {form : Form}
    (hform : InstructionSet.form? (byteAt code pc) = some form) :
    namedOffsets code pc = form.namedOffsets code pc := by
  unfold namedOffsets
  rw [hform]
  rfl

/-! ### Readers -/

/-- A cursor into the code. -/
structure At (code : List UInt8) (c : Cursor) : Prop where
  rest : c.rest = code.drop c.offset
  offset_le : c.offset ≤ code.length

/-- Where a reader that begins at offset `o` of the code gives back `a`, it ends at an offset `o'` with
`P o a o'`. -/
def Reads {α : Type} (code : List UInt8) (x : Operands α) (P : Nat → α → Nat → Prop) : Prop :=
  ∀ c a c', At code c → x c = .ok a c' → At code c' ∧ P c.offset a c'.offset

section Reads

variable {α β : Type} {code : List UInt8} {x : Operands α} {P Q : Nat → α → Nat → Prop}

theorem Reads.mono (hx : Reads code x P) (himp : ∀ o a o', P o a o' → Q o a o') : Reads code x Q :=
  fun c a c' hat hok => ⟨(hx c a c' hat hok).1, himp _ _ _ (hx c a c' hat hok).2⟩

theorem reads_pure (a : α) : Reads code (pure a) fun o b o' => b = a ∧ o' = o := by
  intro c b c' hat hok
  cases hok
  exact ⟨hat, rfl, rfl⟩

theorem reads_throw (e : DecodeFault) : Reads code (throw e : Operands α) P := by
  intro c a c' _ hok
  cases hok

theorem Reads.bind {f : α → Operands β} {R : Nat → β → Nat → Prop} (hx : Reads code x P)
    (hf : ∀ a, Reads code (f a) fun o' b o'' => ∀ o, P o a o' → R o b o'') :
    Reads code (x >>= f) R := by
  intro c b c'' hat hok
  change EStateM.bind x f c = .ok b c'' at hok
  unfold EStateM.bind at hok
  split at hok
  · next a c' hxc =>
    obtain ⟨hat', ha⟩ := hx c a c' hat hxc
    obtain ⟨hat'', hb⟩ := hf a c' b c'' hat' hok
    exact ⟨hat'', hb c.offset ha⟩
  · cases hok

/-- A reader that is followed by a step without reading. -/
theorem Reads.map {f : α → β} (hx : Reads code x P) :
    Reads code (do return f (← x)) fun o b o' => ∃ a, P o a o' ∧ b = f a :=
  hx.bind fun a => (reads_pure (f a)).mono fun _ _ _ ⟨hb, ho⟩ _ ha => ⟨a, ho ▸ ha, hb⟩

/-- A reader that refuses something first. -/
theorem reads_unless {p : Prop} [Decidable p] (e : DecodeFault) {f : PUnit → Operands α}
    (hf : ¬ p → Reads code (f ⟨⟩) P) :
    Reads code (if p then (throw e : Operands PUnit) >>= f else f ⟨⟩) P := by
  split
  · intro c a c' _ hok
    cases hok
  · exact hf ‹_›

theorem reads_ite {p : Prop} [Decidable p] {y : Operands α} (hx : p → Reads code x P)
    (hy : ¬ p → Reads code y P) : Reads code (if p then x else y) P := by
  split
  · exact hx ‹_›
  · exact hy ‹_›

end Reads

/-! ### Numbers in front of a cursor -/

section Sites

variable {code : List UInt8} (s : Site)

theorem reads_u1 : Reads code s.u1 fun o a o' => o < code.length ∧ a = byteAt code o ∧ o' = o + 1 := by
  intro c a c' hat hok
  unfold Site.u1 at hok
  split at hok
  · next b rest hrest =>
    cases hok
    have hdrop : code.drop c.offset = a :: rest := hat.rest.symm.trans hrest
    have hget : code[c.offset]? = some a := by
      rw [← List.head?_drop, hdrop, List.head?_cons]
    have hlt : c.offset < code.length := (List.getElem?_eq_some_iff.mp hget).1
    refine ⟨⟨?_, hlt⟩, hlt, by rw [byteAt, hget]; rfl, rfl⟩
    rw [← List.drop_drop, hdrop, List.drop_one, List.tail_cons]
  · cases hok

theorem reads_i1 :
    Reads code s.i1 fun o a o' => o < code.length ∧ a = (byteAt code o).toInt8 ∧ o' = o + 1 :=
  (reads_u1 s).map.mono fun _ _ _ ⟨_, ⟨hlt, ha, ho⟩, hb⟩ => ⟨hlt, ha ▸ hb, ho⟩

theorem reads_u2 :
    Reads code s.u2 fun o a o' => o + 1 < code.length ∧ a = half code o ∧ o' = o + 2 := by
  refine (reads_u1 s).bind fun a => ((reads_u1 s).map
    (f := fun b => a.toUInt16 <<< 8 ||| b.toUInt16)).mono ?_
  rintro _ _ _ ⟨b, ⟨hlt, rfl, rfl⟩, rfl⟩ o ⟨-, rfl, rfl⟩
  exact ⟨hlt, rfl, rfl⟩

theorem reads_i2 :
    Reads code s.i2 fun o a o' => o + 1 < code.length ∧ a = (half code o).toInt16 ∧ o' = o + 2 :=
  (reads_u2 s).map.mono fun _ _ _ ⟨_, ⟨hlt, ha, ho⟩, hb⟩ => ⟨hlt, ha ▸ hb, ho⟩

theorem reads_i4 :
    Reads code s.i4 fun o a o' => o + 3 < code.length ∧ a = word code o ∧ o' = o + 4 := by
  refine (reads_u2 s).bind fun a => ((reads_u2 s).map
    (f := fun b => (a.toUInt32 <<< 16 ||| b.toUInt32).toInt32)).mono ?_
  rintro _ _ _ ⟨b, ⟨hlt, rfl, rfl⟩, rfl⟩ o ⟨-, rfl, rfl⟩
  exact ⟨hlt, rfl, rfl⟩

theorem reads_at (distance : Int) :
    Reads code (s.at_ distance) fun o t o' =>
      (t : Int) = s.pc + distance ∧ t < s.length ∧ o' = o := by
  unfold Site.at_
  refine reads_ite (fun _ => reads_throw _) fun hin => (reads_pure _).mono ?_
  rintro o t o' ⟨rfl, rfl⟩
  simp only [Bool.or_eq_true, decide_eq_true_eq, not_or] at hin
  exact ⟨Int.toNat_of_nonneg (by omega), by omega, rfl⟩

theorem reads_near :
    Reads code s.near fun o t o' =>
      (t : Int) = s.pc + (half code o).toInt16.toInt ∧ t < s.length ∧ o' = o + 2 := by
  refine (reads_i2 s).bind fun d => (reads_at s d.toInt).mono ?_
  rintro o' t o'' ⟨ht, hlt, rfl⟩ o ⟨-, rfl, rfl⟩
  exact ⟨ht, hlt, rfl⟩

theorem reads_far :
    Reads code s.far fun o t o' =>
      (t : Int) = s.pc + (word code o).toInt ∧ t < s.length ∧ o' = o + 4 := by
  refine (reads_i4 s).bind fun d => (reads_at s d.toInt).mono ?_
  rintro o' t o'' ⟨ht, hlt, rfl⟩ o ⟨-, rfl, rfl⟩
  exact ⟨ht, hlt, rfl⟩

theorem reads_get : Reads code (get : Operands Cursor) fun o c o' => c.offset = o ∧ o' = o := by
  intro c a c' hat hok
  cases hok
  exact ⟨hat, rfl, rfl⟩

/-! ### Switches -/

theorem reads_skip (l : List Nat) :
    Reads code (forIn l PUnit.unit fun _ _ => do
      let _ ← s.u1
      pure (ForInStep.yield PUnit.unit)) fun o _ o' => o' = o + l.length := by
  induction l with
  | nil => exact (reads_pure _).mono fun _ _ _ h => h.2
  | cons a l ih =>
    rw [List.forIn_cons]
    refine ((reads_u1 s).bind fun _ => (reads_pure _).mono
      (Q := fun o' b o'' => ∀ o, _ → b = ForInStep.yield PUnit.unit ∧ o'' = o + 1) ?_).bind ?_
    · rintro _ _ _ ⟨rfl, rfl⟩ o ⟨-, -, rfl⟩
      exact ⟨rfl, rfl⟩
    · intro b c u c' hat hok
      cases b with
      | done u =>
        cases hok
        exact ⟨hat, fun o h => by cases h.1⟩
      | yield u =>
        obtain ⟨hat', ho⟩ := ih c _ c' hat hok
        refine ⟨hat', fun o h => ?_⟩
        rw [ho, h.2, List.length_cons]
        omega

theorem reads_skipPadding :
    Reads code s.skipPadding fun o _ o' => o' = o + (4 - o % 4) % 4 := by
  refine reads_get.bind fun c => ((reads_skip s _).bind (R := fun o' _ o'' =>
    o'' = o' + (4 - c.offset % 4) % 4) fun _ => (reads_pure PUnit.unit).mono ?_).mono ?_
  · rintro _ _ _ ⟨-, rfl⟩ o rfl
    rw [List.length_range]
  · rintro o' _ o'' rfl o ⟨rfl, rfl⟩
    rfl

theorem reads_need (n : Nat) : Reads code (s.need n) fun o _ o' => o' = o := by
  refine reads_get.bind fun c => reads_ite (fun _ => reads_throw _) fun _ => (reads_pure _).mono ?_
  rintro _ _ _ ⟨-, rfl⟩ o ⟨-, rfl⟩
  rfl

theorem range_succ_map {β : Type} (f : Nat → β) (n : Nat) :
    (List.range (n + 1)).map f = f 0 :: (List.range n).map fun k => f (k + 1) := by
  rw [List.range_succ_eq_map, List.map_cons, List.map_map]
  rfl

theorem reads_farList (n : Nat) : ∀ read : List Nat,
    Reads code (s.farList read n) fun o targets o' => o' = o + 4 * n ∧
      targets.map (Nat.cast : Nat → Int) = read.reverse.map Nat.cast ++
        (List.range n).map fun k => s.pc + (word code (o + 4 * k)).toInt := by
  induction n with
  | zero =>
    intro read
    refine (reads_pure _).mono ?_
    rintro o _ o' ⟨rfl, rfl⟩
    simp
  | succ n ih =>
    intro read
    rw [Site.farList]
    refine (reads_far s).bind fun t => (ih (t :: read)).mono ?_
    rintro o' targets o'' ⟨rfl, htargets⟩ o ⟨ht, -, rfl⟩
    refine ⟨by omega, ?_⟩
    rw [htargets, range_succ_map]
    simp only [List.reverse_cons, List.map_append, List.map_cons, List.map_nil, ht,
      List.append_assoc, List.cons_append, List.nil_append, Nat.mul_zero, Nat.add_zero]
    refine congrArg _ (congrArg _ (List.map_congr_left fun k _ => ?_))
    rw [show o + 4 + 4 * k = o + 4 * (k + 1) by omega]

theorem pairwise_push_of_back {pairs : Array (Int32 × Nat)} {key : Int32} {t : Nat}
    (hsorted : pairs.toList.Pairwise fun a b => a.1 < b.1)
    (hback : ∀ p, pairs.back? = some p → p.1 < key) :
    (pairs.push (key, t)).toList.Pairwise fun a b => a.1 < b.1 := by
  rw [Array.toList_push, List.pairwise_append]
  refine ⟨hsorted, List.pairwise_singleton _ _, fun a ha b hb => ?_⟩
  obtain rfl := List.mem_singleton.mp hb
  rcases hlast : pairs.back? with _ | p
  · simp_all
  · rw [Array.back?_eq_getElem?, ← Array.getElem?_toList, ← Array.length_toList,
      ← List.getLast?_eq_getElem?] at hlast
    obtain ⟨init, hinit⟩ := List.getLast?_eq_some_iff.mp hlast
    have hp : p.1 < key := hback p (by
      rw [Array.back?_eq_getElem?, ← Array.getElem?_toList, ← Array.length_toList,
        ← List.getLast?_eq_getElem?, hlast])
    rw [hinit] at ha hsorted
    rcases List.mem_append.mp ha with ha | ha
    · exact Int32.lt_trans ((List.pairwise_append.mp hsorted).2.2 a ha p (by simp)) hp
    · obtain rfl := List.mem_singleton.mp ha
      exact hp

theorem reads_pairList (n : Nat) : ∀ read : Array (Int32 × Nat),
    (read.toList.Pairwise fun a b => a.1 < b.1) →
    Reads code (s.pairList read n) fun o pairs o' => o' = o + 8 * n ∧
      (pairs.toList.Pairwise fun a b => a.1 < b.1) ∧
      pairs.toList.map (fun p => (p.2 : Int)) = read.toList.map (fun p => (p.2 : Int)) ++
        (List.range n).map fun k => s.pc + (word code (o + 8 * k + 4)).toInt := by
  induction n with
  | zero =>
    intro read hsorted
    refine (reads_pure _).mono ?_
    rintro o _ o' ⟨rfl, rfl⟩
    simpa using hsorted
  | succ n ih =>
    intro read hsorted
    have hnext (key : Int32) (hback : ∀ p, read.back? = some p → p.1 < key) :
        Reads code (do s.pairList (read.push (key, ← s.far)) n) fun o pairs o' =>
          o' = o + 4 + 8 * n ∧ (pairs.toList.Pairwise fun a b => a.1 < b.1) ∧
          pairs.toList.map (fun p => (p.2 : Int)) = read.toList.map (fun p => (p.2 : Int)) ++
            (s.pc + (word code o).toInt) ::
              (List.range n).map fun k => s.pc + (word code (o + 4 + 8 * k + 4)).toInt := by
      refine (reads_far s).bind fun t =>
        (ih (read.push (key, t)) (pairwise_push_of_back hsorted hback)).mono ?_
      rintro o' pairs o'' ⟨rfl, hs, hpairs⟩ o ⟨ht, -, rfl⟩
      exact ⟨by omega, hs, by simpa [ht] using hpairs⟩
    rw [Site.pairList]
    refine (reads_i4 s).bind fun key => Reads.mono (P := fun o pairs o' =>
      o' = o + 4 + 8 * n ∧ (pairs.toList.Pairwise fun a b => a.1 < b.1) ∧
        pairs.toList.map (fun p => (p.2 : Int)) = read.toList.map (fun p => (p.2 : Int)) ++
          (s.pc + (word code o).toInt) ::
            (List.range n).map fun k => s.pc + (word code (o + 4 + 8 * k + 4)).toInt) ?_ ?_
    · split
      · next previous t hback =>
        refine reads_unless _ fun hlt => hnext key fun p hp => ?_
        rw [hback] at hp
        cases hp
        exact Int32.not_le.mp hlt
      · next hback => exact hnext key fun p hp => (hback p.1 p.2 hp).elim
    rintro o' pairs o'' ⟨rfl, hs, hpairs⟩ o ⟨-, -, rfl⟩
    refine ⟨by omega, hs, ?_⟩
    rw [hpairs, range_succ_map]
    refine congrArg _ (congrArg _ (List.map_congr_left fun k _ => ?_))
    rw [show o + 4 + 4 + 8 * k + 4 = o + 8 * (k + 1) + 4 by omega]

/-- The offsets that a table holds, the default first. -/
def SwitchTable.offsets (t : SwitchTable) : List Int := t.allTargets.map Nat.cast

theorem reads_rangeTable :
    Reads code s.rangeTable fun o t o' => o = s.pc + 1 →
      o' = s.pc + Form.tableSwitch.encodedLength code s.pc ∧
      t.offsets = Form.tableSwitch.namedOffsets code s.pc ∧ t.Sorted := by
  rw [Site.rangeTable]
  refine (reads_skipPadding s).bind fun _ => (reads_far s).bind fun default => (reads_i4 s).bind
    fun low => (reads_i4 s).bind fun high => reads_unless _ fun _ => (reads_need s _).bind fun _ =>
    (reads_farList s _ []).bind fun targets => (reads_pure _).mono ?_
  rintro _ _ _ ⟨rfl, rfl⟩ o₁ ⟨hend, htargets⟩ o₂ hneed o₃ ⟨-, hhigh, h₃⟩ o₄ ⟨-, hlow, h₄⟩ o₅
    ⟨hdefault, -, h₅⟩ o hpadding hstart
  have hpc : s.pc ≤ aligned s.pc := by unfold aligned; omega
  obtain rfl : o₅ = aligned s.pc := by rw [hpadding, hstart, aligned]
  obtain rfl : o₄ = aligned s.pc + 4 := h₅
  obtain rfl : o₃ = aligned s.pc + 8 := h₄
  have hcount : (high.toInt - low.toInt + 1).toNat = rangeCount code s.pc := by
    rw [hhigh, hlow, rangeCount]
  rw [hcount] at hend htargets
  simp only [Form.encodedLength, Form.namedOffsets]
  refine ⟨by omega, ?_, trivial⟩
  obtain rfl : o₁ = aligned s.pc + 12 := hneed.trans h₃
  simp only [SwitchTable.offsets, SwitchTable.allTargets, List.map_cons, hdefault, htargets,
    List.reverse_nil, List.map_nil, List.nil_append]

theorem reads_pairTable :
    Reads code s.pairTable fun o t o' => o = s.pc + 1 →
      o' = s.pc + Form.lookupSwitch.encodedLength code s.pc ∧
      t.offsets = Form.lookupSwitch.namedOffsets code s.pc ∧ t.Sorted := by
  rw [Site.pairTable]
  refine (reads_skipPadding s).bind fun _ => (reads_far s).bind fun default => (reads_i4 s).bind
    fun count => reads_unless _ fun _ => (reads_need s _).bind fun _ =>
    (reads_pairList s _ #[] (by simp)).bind fun pairs => (reads_pure _).mono ?_
  rintro _ _ _ ⟨rfl, rfl⟩ o₁ ⟨hend, hsorted, hpairs⟩ o₂ hneed o₃ ⟨-, hcount, h₃⟩ o₅
    ⟨hdefault, -, h₅⟩ o hpadding hstart
  have hpc : s.pc ≤ aligned s.pc := by unfold aligned; omega
  obtain rfl : o₅ = aligned s.pc := by rw [hpadding, hstart, aligned]
  obtain rfl : o₃ = aligned s.pc + 4 := h₅
  have hpairCount : count.toInt.toNat = pairCount code s.pc := by rw [hcount, pairCount]
  rw [hpairCount] at hend hpairs
  simp only [Form.encodedLength, Form.namedOffsets]
  refine ⟨by omega, ?_, hsorted⟩
  obtain rfl : o₁ = aligned s.pc + 8 := hneed.trans h₃
  simp only [SwitchTable.offsets, SwitchTable.allTargets, List.map_cons, List.map_map, hdefault]
  exact congrArg _ hpairs

/-! ### Instructions -/

/-- What is read for the instruction at `pc`, as the `n`-th switch if it is one: an operation that holds
the offsets named there, or a table that does. -/
structure Raw (code : List UInt8) (pc n : Nat) (read : Operation × Option SwitchTable) : Prop where
  offsets : read.1.target?.toList.map (Nat.cast : Nat → Int) ++
    (read.2.map SwitchTable.offsets).getD [] = namedOffsets code pc
  number : read.1.table? = read.2.map fun _ => n
  sorted : ∀ t ∈ read.2, t.Sorted

/-- An operation without operands is neither a jump nor a switch. -/
theorem InstructionSet.plain_row (op : Operation) (mnemonic : String)
    (hrow : (mnemonic, Form.plain op) ∈ InstructionSet.table) :
    op.target? = none ∧ op.table? = none := by
  have hall : InstructionSet.table.all (fun row => match row.2 with
      | .plain op => op.target?.isNone && op.table?.isNone
      | _ => true) = true := by decide +kernel
  simpa using Array.all_eq_true_iff_forall_mem.mp hall _ hrow

theorem InstructionSet.plain_of_form? {opcode : UInt8} {op : Operation}
    (hform : InstructionSet.form? opcode = some (.plain op)) :
    op.target? = none ∧ op.table? = none := by
  obtain ⟨⟨mnemonic, form⟩, hrow, rfl⟩ := Option.map_eq_some_iff.mp hform
  exact plain_row op mnemonic (Array.mem_of_getElem? hrow)

/-- An operation that is neither a jump nor a switch, read where the code names no offsets. -/
theorem raw_straight {pc n : Nat} {form : Form} {op : Operation}
    (hform : InstructionSet.form? (byteAt code pc) = some form)
    (hnone : form.namedOffsets code pc = []) (htarget : op.target? = none)
    (htable : op.table? = none) : Raw code pc n (op, none) where
  offsets := by rw [namedOffsets_of_form hform, hnone, htarget]; rfl
  number := htable
  sorted := by simp

theorem raw_jump {pc n t : Nat} {form : Form} {jump : Jump}
    (hform : InstructionSet.form? (byteAt code pc) = some form)
    (hnamed : form.namedOffsets code pc = [(t : Int)]) : Raw code pc n (.jump jump t, none) where
  offsets := by rw [namedOffsets_of_form hform, hnamed]; rfl
  number := rfl
  sorted := by simp

theorem raw_switch {pc n : Nat} {form : Form} {op : Operation} {t : SwitchTable}
    (hform : InstructionSet.form? (byteAt code pc) = some form)
    (hnamed : t.offsets = form.namedOffsets code pc) (htarget : op.target? = none)
    (htable : op.table? = some n) (hsorted : t.Sorted) : Raw code pc n (op, some t) where
  offsets := by rw [namedOffsets_of_form hform, ← hnamed, htarget]; rfl
  number := htable
  sorted := by simpa using hsorted

theorem reads_widened :
    Reads code s.widened fun o op o' => o = s.pc + 1 →
      o' = s.pc + Form.wide.encodedLength code s.pc ∧ op.target? = none ∧ op.table? = none := by
  rw [Site.widened]
  refine (reads_u1 s).bind fun opcode => ?_
  split
  · next kind hform =>
    refine (reads_u2 s).map.mono ?_
    rintro o' _ o'' ⟨_, ⟨-, -, rfl⟩, rfl⟩ o ⟨-, rfl, rfl⟩ rfl
    refine ⟨?_, rfl, rfl⟩
    simp [Form.encodedLength, hform]
  · next kind hform =>
    refine (reads_u2 s).map.mono ?_
    rintro o' _ o'' ⟨_, ⟨-, -, rfl⟩, rfl⟩ o ⟨-, rfl, rfl⟩ rfl
    refine ⟨?_, rfl, rfl⟩
    simp [Form.encodedLength, hform]
  · next hform =>
    refine (reads_u2 s).map.mono ?_
    rintro o' _ o'' ⟨_, ⟨-, -, rfl⟩, rfl⟩ o ⟨-, rfl, rfl⟩ rfl
    refine ⟨?_, rfl, rfl⟩
    simp [Form.encodedLength, hform]
  · next hform =>
    refine (reads_u2 s).bind fun _ => (reads_i2 s).map.mono ?_
    rintro o₂ _ o' ⟨_, ⟨-, -, rfl⟩, rfl⟩ o₁ ⟨-, -, rfl⟩ o ⟨-, rfl, rfl⟩ rfl
    refine ⟨?_, rfl, rfl⟩
    simp [Form.encodedLength, hform]
  · exact reads_throw _

/-- The operands of an instruction are read up to the next instruction. -/
theorem reads_operands (n : Nat) (form : Form) :
    Reads code (s.operands n form) fun o read o' => o = s.pc + 1 →
      InstructionSet.form? (byteAt code s.pc) = some form →
      o' = s.pc + form.encodedLength code s.pc ∧ Raw code s.pc n read := by
  cases form with
  | plain op =>
    refine (reads_pure _).mono ?_
    rintro o _ o' ⟨rfl, rfl⟩ rfl hform
    obtain ⟨htarget, htable⟩ := InstructionSet.plain_of_form? hform
    exact ⟨rfl, raw_straight hform rfl htarget htable⟩
  | pushByte =>
    refine (reads_i1 s).map.mono ?_
    rintro o _ o' ⟨_, ⟨-, -, rfl⟩, rfl⟩ rfl hform
    exact ⟨rfl, raw_straight hform rfl rfl rfl⟩
  | pushShort =>
    refine (reads_i2 s).map.mono ?_
    rintro o _ o' ⟨_, ⟨-, -, rfl⟩, rfl⟩ rfl hform
    exact ⟨rfl, raw_straight hform rfl rfl rfl⟩
  | ldc | load _ | store _ | ret =>
    refine (reads_u1 s).map.mono ?_
    rintro o _ o' ⟨_, ⟨-, -, rfl⟩, rfl⟩ rfl hform
    exact ⟨rfl, raw_straight hform rfl rfl rfl⟩
  | ldcWide | ldc2 | pooled _ =>
    refine (reads_u2 s).map.mono ?_
    rintro o _ o' ⟨_, ⟨-, -, rfl⟩, rfl⟩ rfl hform
    exact ⟨rfl, raw_straight hform rfl rfl rfl⟩
  | iinc =>
    refine (reads_u1 s).bind fun _ => (reads_i1 s).map.mono ?_
    rintro o₁ _ o' ⟨_, ⟨-, -, rfl⟩, rfl⟩ o ⟨-, -, rfl⟩ rfl hform
    exact ⟨rfl, raw_straight hform rfl rfl rfl⟩
  | jump jump =>
    refine (reads_near s).map.mono ?_
    rintro o _ o' ⟨_, ⟨ht, -, rfl⟩, rfl⟩ rfl hform
    exact ⟨rfl, raw_jump hform (by rw [ht]; rfl)⟩
  | farJump jump =>
    refine (reads_far s).map.mono ?_
    rintro o _ o' ⟨_, ⟨ht, -, rfl⟩, rfl⟩ rfl hform
    exact ⟨rfl, raw_jump hform (by rw [ht]; rfl)⟩
  | tableSwitch =>
    refine (reads_rangeTable s).map.mono ?_
    rintro o _ o' ⟨t, ht, rfl⟩ hstart hform
    obtain ⟨ho', hnamed, hsorted⟩ := ht hstart
    exact ⟨ho', raw_switch hform hnamed rfl rfl hsorted⟩
  | lookupSwitch =>
    refine (reads_pairTable s).map.mono ?_
    rintro o _ o' ⟨t, ht, rfl⟩ hstart hform
    obtain ⟨ho', hnamed, hsorted⟩ := ht hstart
    exact ⟨ho', raw_switch hform hnamed rfl rfl hsorted⟩
  | invokeInterface =>
    refine (reads_u2 s).bind fun _ => (reads_u1 s).bind fun _ => (reads_u1 s).bind fun _ =>
      reads_unless _ fun _ => (reads_pure _).mono ?_
    rintro _ _ _ ⟨rfl, rfl⟩ o₂ ⟨-, -, h₂⟩ o₁ ⟨-, -, h₁⟩ o ⟨-, -, h⟩ hstart hform
    exact ⟨by simp only [Form.encodedLength]; omega, raw_straight hform rfl rfl rfl⟩
  | invokeDynamic =>
    refine (reads_u2 s).bind fun _ => (reads_u2 s).bind fun _ => (reads_pure _).mono ?_
    rintro _ _ _ ⟨rfl, rfl⟩ o₁ ⟨-, -, h₁⟩ o ⟨-, -, h⟩ hstart hform
    exact ⟨by simp only [Form.encodedLength]; omega, raw_straight hform rfl rfl rfl⟩
  | newArray =>
    refine (reads_u1 s).bind fun code' => ?_
    split
    · refine (reads_pure _).mono ?_
      rintro _ _ _ ⟨rfl, rfl⟩ o ⟨-, -, rfl⟩ rfl hform
      exact ⟨rfl, raw_straight hform rfl rfl rfl⟩
    · exact reads_throw _
  | newMultiArray =>
    refine (reads_u2 s).bind fun _ => (reads_u1 s).bind fun _ => reads_unless _ fun _ =>
      (reads_pure _).mono ?_
    rintro _ _ _ ⟨rfl, rfl⟩ o₁ ⟨-, -, h₁⟩ o ⟨-, -, h⟩ hstart hform
    exact ⟨by simp only [Form.encodedLength]; omega, raw_straight hform rfl rfl rfl⟩
  | wide =>
    refine (reads_widened s).map.mono ?_
    rintro o _ o' ⟨op, h, rfl⟩ hstart hform
    obtain ⟨ho', htarget, htable⟩ := h hstart
    exact ⟨ho', raw_straight hform rfl htarget htable⟩

/-- **An instruction is read up to the next one.** -/
theorem reads_instruction (n : Nat) :
    Reads code (s.instruction n) fun o read o' => o = s.pc →
      o < code.length ∧ o' = s.pc + encodedLength code s.pc ∧ Raw code s.pc n read := by
  refine (reads_u1 s).bind fun opcode => ?_
  split
  · next form hform =>
    refine (reads_operands s n form).mono ?_
    rintro o' read o'' hread o ⟨hlt, rfl, rfl⟩ rfl
    rw [encodedLength_of_form hform]
    exact ⟨hlt, hread rfl hform⟩
  · exact reads_throw _

end Sites

end Jvm.Bytecode
