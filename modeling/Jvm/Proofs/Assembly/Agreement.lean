import Mathlib
import Jvm.Proofs.Assembly.Instructions
import Jvm.Proofs.Bytecode.Decoding

/-! # Assembling and decoding agree

Assembled code is decoded to one operation for each instruction that was written, and it is the one that
was meant, with every jump going to the instruction behind its label (`decode_assembled`). Both halves of
the proof meet at `Laid`, which places the statements one behind the other in the bytes: assembling lays
them out (`laid_of_foldlM`), and reading takes up what is laid out (`Laid.read`). -/

namespace Jvm.Assembly

open ClassFile Bytecode

/-! ### Laying out -/

/-- How the statements lie in the bytes from an offset of the code on. -/
inductive Laid (f : Draft) (length : Nat) : Nat → List Statement → List UInt8 → Prop
  | done {o : Nat} : Laid f length o [] []
  | label {o : Nat} {l : Label} {statements : List Statement} {bs : List UInt8} :
    f.labels.lookup l = some o → Laid f length o statements bs →
    Laid f length o (.label l :: statements) bs
  | aside {o : Nat} {st : Statement} {statements : List Statement} {bs : List UInt8} :
    st.isInstruction = false → (∀ l, st ≠ .label l) → Laid f length o statements bs →
    Laid f length o (st :: statements) bs
  | instruction {o : Nat} {st : Statement} {statements : List Statement} {bs rest : List UInt8} :
    st.isInstruction = true → bs ≠ [] → Means f length o st bs →
    Laid f length (o + bs.length) statements rest →
    Laid f length o (st :: statements) (bs ++ rest)

/-- Statements that are neither instructions nor labels add no code. -/
theorem writes_aside {d d' : Draft} {st : Statement} (hinsn : st.isInstruction = false)
    (hlabel : ∀ l, st ≠ .label l) (hadd : d.add st = .ok d') : Writes d d' [] := by
  cases st with
  | label l => exact absurd rfl (hlabel l)
  | handler start stop handler catchType =>
    cases catchType with
    | none =>
      cases hadd
      exact ⟨rfl, rfl, rfl, .refl _, id⟩
    | some name =>
      cases hadd
      exact ⟨rfl, rfl, rfl, (writes_entry d (.classRef name)).grows,
        (writes_entry d (.classRef name)).sound⟩
  | line | maxStack | maxLocals =>
    cases hadd
    exact ⟨rfl, rfl, rfl, .refl _, id⟩
  | _ => cases hinsn

theorem putLabel_eq_ok {d d' : Draft} {l : Label} (h : d.putLabel l = .ok d') :
    d.labels.lookup l = none ∧ d' = { d with labels := (l, d.size) :: d.labels } := by
  unfold Draft.putLabel at h
  split at h
  · cases h
  · next hnone =>
    cases h
    exact ⟨hnone, rfl⟩

/-- The number of instructions in front of a label. -/
def labelIndex (l : Label) : List Statement → Option Nat
  | [] => none
  | .label m :: statements => if m = l then some 0 else labelIndex l statements
  | st :: statements =>
    (labelIndex l statements).map fun i => if st.isInstruction then i + 1 else i

/-- What a run of statements makes of a draft: the final draft keeps what was there, and the statements
lie in the bytes that its further pieces spell. -/
structure LaidOut (d f : Draft) (statements : List Statement) (ps : List Piece) : Prop where
  pieces : f.pieces = ps.reverse ++ d.pieces
  size : f.size = d.size + piecesSize ps
  longer : statements.filter (·.isInstruction) ≠ [] → d.size < f.size
  grows : d.pool.Extends f.pool
  labels : ∀ l o, d.labels.lookup l = some o → f.labels.lookup l = some o
  inside : ∀ l i, labelIndex l statements = some i →
    i < (statements.filter (·.isInstruction)).length → ∀ t, f.labels.lookup l = some t → t < f.size
  laid : ∀ length bs, Spells f ps bs → d.size + bs.length ≤ length → length ≤ 65535 →
    (∀ st ∈ statements, ∀ l ∈ st.targets, ∀ t, f.labels.lookup l = some t → t < length) →
    Laid f length d.size statements bs

section

variable {d d' f : Draft} {st : Statement} {statements : List Statement} {ps qs : List Piece}

theorem labelIndex_cons {l : Label} (h : ∀ m, st ≠ .label m) :
    labelIndex l (st :: statements) =
      (labelIndex l statements).map fun i => if st.isInstruction then i + 1 else i := by
  rw [labelIndex]
  exact h

theorem LaidOut.nil : LaidOut f f [] [] where
  pieces := rfl
  size := rfl
  longer h := absurd rfl h
  grows := .refl _
  labels _ _ h := h
  inside _ _ h := by cases h
  laid length bs hspells _ _ _ := by
    cases hspells
    exact .done

theorem LaidOut.instruction (hinsn : st.isInstruction = true) (hne : ps ≠ [])
    (hwrites : Writes d d' ps)
    (hmeans : ∀ (f : Draft) (length : Nat) (bs : List UInt8), d'.pool.Extends f.pool →
      Spells f ps bs → d.size + bs.length ≤ length → length ≤ 65535 →
      (∀ l ∈ st.targets, ∀ t, f.labels.lookup l = some t → t < length) →
      Means f length d.size st bs)
    (h : LaidOut d' f statements qs) : LaidOut d f (st :: statements) (ps ++ qs) where
  pieces := by rw [h.pieces, hwrites.pieces, List.reverse_append, List.append_assoc]
  size := by rw [h.size, hwrites.size, piecesSize_append, Nat.add_assoc]
  longer _ := by
    have hpos := piecesSize_pos hne
    rw [h.size, hwrites.size]
    omega
  grows := hwrites.grows.trans h.grows
  labels := hwrites.labels ▸ h.labels
  inside l i hi hlt t ht := by
    rw [labelIndex_cons (by rintro m rfl; cases hinsn)] at hi
    obtain ⟨j, hj, rfl⟩ := Option.map_eq_some_iff.mp hi
    rw [if_pos hinsn, List.filter_cons_of_pos hinsn, List.length_cons] at hlt
    exact h.inside l j hj (Nat.lt_of_succ_lt_succ hlt) t ht
  laid length bs hspells hfits hsmall htargets := by
    obtain ⟨b, c, rfl, hb, hc⟩ := hspells.append_inv
    obtain ⟨hfirst, hothers⟩ := List.forall_mem_cons.mp htargets
    rw [List.length_append] at hfits
    have hsize : d'.size = d.size + b.length := by rw [hwrites.size, hb.length]
    have hpos : 0 < b.length := hb.length ▸ piecesSize_pos hne
    refine .instruction hinsn (List.length_pos_iff.mp hpos)
      (hmeans f length b h.grows hb (by omega) hsmall hfirst) ?_
    rw [← hsize]
    exact h.laid length c hc (by omega) hsmall hothers

theorem LaidOut.label {l : Label} (hnew : d.labels.lookup l = none)
    (h : LaidOut { d with labels := (l, d.size) :: d.labels } f statements ps) :
    LaidOut d f (.label l :: statements) ps := by
  have hl : f.labels.lookup l = some d.size := h.labels l d.size (List.lookup_cons_self)
  refine ⟨h.pieces, h.size, h.longer, h.grows, fun m o hm => h.labels m o ?_,
    fun m i hi hlt t ht => ?_, fun length bs hspells hfits hsmall htargets => .label hl
      (h.laid length bs hspells hfits hsmall (List.forall_mem_cons.mp htargets).2)⟩
  · rw [List.lookup_cons]
    split
    · next heq =>
      rw [beq_iff_eq.mp heq, hnew] at hm
      cases hm
    · exact hm
  · rw [labelIndex] at hi
    split at hi
    · next heq =>
      subst heq
      obtain rfl := Option.some.inj (hl.symm.trans ht)
      exact h.longer (List.length_pos_iff.mp (Nat.zero_lt_of_lt hlt))
    · exact h.inside m i hi hlt t ht

theorem LaidOut.aside (hinsn : st.isInstruction = false) (hlabel : ∀ l, st ≠ .label l)
    (hwrites : Writes d d' []) (h : LaidOut d' f statements ps) :
    LaidOut d f (st :: statements) ps := by
  have hsize : d'.size = d.size := hwrites.size
  have hfilter : (st :: statements).filter (·.isInstruction) =
      statements.filter (·.isInstruction) := List.filter_cons_of_neg (by simp [hinsn])
  refine ⟨h.pieces.trans (by rw [hwrites.pieces]; rfl), h.size.trans (by rw [hsize]), ?_,
    hwrites.grows.trans h.grows, hwrites.labels ▸ h.labels, fun l i hi hlt => ?_,
    fun length bs hspells hfits hsmall htargets => .aside hinsn hlabel ?_⟩
  · rw [hfilter, ← hsize]
    exact h.longer
  · rw [labelIndex_cons hlabel] at hi
    rw [hfilter] at hlt
    exact h.inside l i (by simpa [hinsn] using hi) hlt
  · rw [← hsize]
    exact h.laid length bs hspells (by omega) hsmall (List.forall_mem_cons.mp htargets).2

end

/-- Statements that were added to a draft are laid out. -/
theorem laidOut_of_foldlM {f : Draft} : ∀ {statements : List Statement} {d : Draft},
    statements.foldlM Draft.add d = .ok f → d.pool.Sound →
    (∀ st ∈ statements, st.isInstruction = true → st.Valid) → ∃ ps, LaidOut d f statements ps
  | [], d, h, _, _ => by
    cases h
    exact ⟨[], .nil⟩
  | st :: statements, d, h, hd, hvalid => by
    rw [List.foldlM_cons] at h
    rcases hadd : d.add st with e | d'
    · rw [hadd] at h
      cases h
    rw [hadd] at h
    change statements.foldlM Draft.add d' = .ok f at h
    obtain ⟨hfirst, hrest⟩ := List.forall_mem_cons.mp hvalid
    by_cases hinsn : st.isInstruction = true
    · obtain ⟨ps, hne, hwrites, hmeans⟩ := emits_add hd (hfirst hinsn) hinsn hadd
      obtain ⟨qs, hlaid⟩ := laidOut_of_foldlM h (hwrites.sound hd) hrest
      exact ⟨ps ++ qs, hlaid.instruction hinsn hne hwrites hmeans⟩
    · by_cases hlabel : ∃ l, st = .label l
      · obtain ⟨l, rfl⟩ := hlabel
        obtain ⟨hnew, rfl⟩ := putLabel_eq_ok hadd
        obtain ⟨ps, hlaid⟩ := laidOut_of_foldlM h hd hrest
        exact ⟨ps, hlaid.label hnew⟩
      · have hlabel' : ∀ l, st ≠ .label l := fun l h => hlabel ⟨l, h⟩
        have hinsn' : st.isInstruction = false := by simpa using hinsn
        have hwrites := writes_aside hinsn' hlabel' hadd
        obtain ⟨ps, hlaid⟩ := laidOut_of_foldlM h (hwrites.sound hd) hrest
        exact ⟨ps, hlaid.aside hinsn' hlabel' hwrites⟩

/-! ### Reading -/

theorem readInstructions_nil (length : Nat) (instructions : Array Instruction)
    (tables : Array SwitchTable) (fuel o : Nat) :
    readInstructions length instructions tables fuel ⟨o, []⟩ = .ok (instructions, tables) ⟨o, []⟩ := by
  cases fuel <;> rfl

theorem readInstructions_cons {length fuel o : Nat} {instructions : Array Instruction}
    {tables : Array SwitchTable} {bs rest : List UInt8} {op : Operation} {table : Option SwitchTable}
    (hne : bs ≠ []) (hread : Yields o (Site.instruction ⟨o, length⟩ tables.size) bs (op, table)) :
    readInstructions length instructions tables (fuel + 1) ⟨o, bs ++ rest⟩ =
      readInstructions length (instructions.push ⟨o.toUInt16, op⟩) (tables ++ table.toList.toArray)
        fuel ⟨o + bs.length, rest⟩ := by
  have hend : (Cursor.mk o (bs ++ rest)).atEnd = false := by
    simp [Cursor.atEnd, hne]
  rw [readInstructions]
  simp only [bind, EStateM.bind, get, getThe, MonadStateOf.get, EStateM.get, hend,
    Bool.false_eq_true, if_false, hread rest]
  cases table <;> simp

/-- What is read where statements are laid out: an instruction for each instruction among them. -/
structure ReadAs (f : Draft) (o : Nat) (statements : List Statement) (tables : Array SwitchTable)
    (is : List Instruction) : Prop where
  denotes : List.Forall₂ (fun st insn => Denotes f.pool (f.labels.lookup ·) st insn.operation
    (insn.operation.table?.bind (tables[·]?))) (statements.filter (·.isInstruction)) is
  head : ∀ insn ∈ is.head?, insn.pc = o.toUInt16
  labels : ∀ l i, labelIndex l statements = some i → ∃ t, f.labels.lookup l = some t ∧
    ∀ insn ∈ is[i]?, insn.pc = t.toUInt16

theorem Laid.read {f : Draft} {length o : Nat} {statements : List Statement} {bs : List UInt8}
    (h : Laid f length o statements bs) : ∀ (instructions : Array Instruction)
    (tables : Array SwitchTable) (fuel : Nat), bs.length ≤ fuel → ∃ is ts c,
      readInstructions length instructions tables fuel ⟨o, bs⟩ =
        .ok (instructions ++ is.toArray, tables ++ ts) c ∧
      ReadAs f o statements (tables ++ ts) is := by
  induction h with
  | @done o =>
    intro instructions tables fuel _
    refine ⟨[], #[], ⟨o, []⟩, ?_, .nil, by simp, by simp [labelIndex]⟩
    rw [readInstructions_nil]
    simp
  | @label o l statements bs hl _ ih =>
    intro instructions tables fuel hfuel
    obtain ⟨is, ts, c, hread, has⟩ := ih instructions tables fuel hfuel
    refine ⟨is, ts, c, hread, has.denotes, has.head, fun m i hi => ?_⟩
    rw [labelIndex] at hi
    split at hi
    · next heq =>
      cases hi
      exact ⟨o, heq ▸ hl, fun insn hinsn => has.head insn (by rwa [List.head?_eq_getElem?])⟩
    · exact has.labels m i hi
  | @aside o st statements bs hinsn hlabel _ ih =>
    intro instructions tables fuel hfuel
    obtain ⟨is, ts, c, hread, has⟩ := ih instructions tables fuel hfuel
    refine ⟨is, ts, c, hread, ?_, has.head, fun m i hi => has.labels m i ?_⟩
    · rw [List.filter_cons_of_neg (by simp [hinsn])]
      exact has.denotes
    · rw [labelIndex_cons hlabel] at hi
      simpa [hinsn] using hi
  | @instruction o st statements bs rest hinsn hne hmeans _ ih =>
    intro instructions tables fuel hfuel
    obtain ⟨op, table, hyields, hnumber, hdenotes⟩ := hmeans tables.size
    have hpos := List.length_pos_iff.mpr hne
    rw [List.length_append] at hfuel
    obtain ⟨fuel, rfl⟩ : ∃ n, fuel = n + 1 := ⟨fuel - 1, by omega⟩
    obtain ⟨is, ts, c, hread, has⟩ := ih (instructions.push ⟨o.toUInt16, op⟩)
      (tables ++ table.toList.toArray) fuel (by omega)
    refine ⟨⟨o.toUInt16, op⟩ :: is, table.toList.toArray ++ ts, c, ?_, ?_, ?_, fun m i hi => ?_⟩
    · rw [readInstructions_cons hne hyields, hread]
      simp
    · rw [List.filter_cons_of_pos hinsn, ← Array.append_assoc]
      refine .cons ?_ has.denotes
      have htable : op.table?.bind ((tables ++ table.toList.toArray ++ ts)[·]?) = table := by
        rw [hnumber]
        cases table with
        | none => rfl
        | some t =>
          rw [Option.map_some, Option.bind_some, Array.getElem?_append_left (by simp)]
          simp
      rw [htable]
      exact hdenotes
    · rintro insn ⟨⟩
      rfl
    · rw [labelIndex_cons (by rintro l rfl; cases hinsn)] at hi
      obtain ⟨j, hj, rfl⟩ := Option.map_eq_some_iff.mp hi
      rw [if_pos hinsn]
      exact has.labels m j hj

/-! ### Linking -/

/-- The cases of a switch with other positions. -/
def relocateCases (g : Nat → Nat) : SwitchCases → SwitchCases
  | .range low targets => .range low (targets.map g)
  | .pairs pairs => .pairs (pairs.toList.map fun p => (p.1, g p.2)).toArray

/-- A table with other positions. -/
def relocateTable (g : Nat → Nat) (t : SwitchTable) : SwitchTable :=
  ⟨g t.default, relocateCases g t.cases⟩

/-- An operation with another position in its jump. -/
def relocate (g : Nat → Nat) : Operation → Operation
  | .jump jump t => .jump jump (g t)
  | op => op

theorem mapM_eq_ok {α β ε : Type} {f : α → Except ε β} {g : α → β} :
    ∀ {l : List α}, (∀ a ∈ l, f a = .ok (g a)) → l.mapM f = .ok (l.map g)
  | [], _ => rfl
  | a :: l, h => by
    obtain ⟨ha, hl⟩ := List.forall_mem_cons.mp h
    rw [List.mapM_cons, ha, mapM_eq_ok hl]
    rfl

theorem table_mapM_eq_ok {ε : Type} {f : Nat → Except ε Nat} {g : Nat → Nat} {t : SwitchTable}
    (h : ∀ p ∈ t.allTargets, f p = .ok (g p)) : t.mapM f = .ok (relocateTable g t) := by
  obtain ⟨default, cases⟩ := t
  obtain ⟨hdefault, hcases⟩ := List.forall_mem_cons.mp h
  unfold SwitchTable.mapM
  simp only at hdefault
  simp only [hdefault]
  cases cases with
  | range low targets =>
    have htargets : targets.mapM f = .ok (targets.map g) := mapM_eq_ok hcases
    simp only [htargets]
    rfl
  | pairs pairs =>
    have hpairs : pairs.toList.mapM (fun p => do return (p.1, ← f p.2)) =
        .ok (pairs.toList.map fun p => (p.1, g p.2)) := by
      refine mapM_eq_ok fun p hp => ?_
      rw [hcases p.2 (List.mem_map_of_mem hp)]
      rfl
    simp only [hpairs]
    rfl

variable {starts : Array (Option Nat)} {g : Nat → Nat}

/-- Whether the positions of an instruction all have an index. -/
def Linkable (starts : Array (Option Nat)) (g : Nat → Nat) (tables : Array SwitchTable)
    (op : Operation) : Prop :=
  ∀ t ∈ op.target?.toList ++ ((op.table?.bind (tables[·]?)).map SwitchTable.allTargets).getD [],
    starts[t]?.join = some (g t)

/-- The tables after an operation has been linked. -/
def relocateIn (g : Nat → Nat) (op : Operation) (tables : Array SwitchTable) : Array SwitchTable :=
  match op.table? with
  | some n => tables.modify n (relocateTable g)
  | none => tables

theorem link_switch {tables : Array SwitchTable} {insn : Instruction} {n : Nat}
    (hnumber : insn.operation.table? = some n)
    (h : Linkable starts g tables insn.operation) :
    (match tables[n]? with
      | some table => do
        return (insn, tables.setIfInBounds n (← table.mapM (indexIn starts insn.pc)))
      | none => return (insn, tables)) =
      Except.ok (insn, tables.modify n (relocateTable g)) := by
  rcases hget : tables[n]? with _ | table
  · have hsize : tables.size ≤ n := Array.getElem?_eq_none_iff.mp hget
    refine congrArg (fun ts => Except.ok (insn, ts)) (Array.ext_getElem? fun i => ?_)
    rw [Array.getElem?_modify]
    split
    · next heq =>
      subst heq
      rw [hget]
      rfl
    · rfl
  · have hmap : table.mapM (indexIn starts insn.pc) = .ok (relocateTable g table) := by
      refine table_mapM_eq_ok fun p hp => indexIn_eq_ok.mpr (h p (List.mem_append_right _ ?_))
      rw [hnumber, Option.bind_some, hget]
      exact hp
    simp only [hmap]
    refine congrArg (fun ts => Except.ok (insn, ts)) (Array.ext_getElem? fun i => ?_)
    rw [Array.getElem?_modify, Array.getElem?_setIfInBounds]
    obtain ⟨hlt, rfl⟩ := Array.getElem?_eq_some_iff.mp hget
    by_cases heq : n = i
    · subst heq
      simp [hlt]
    · simp [heq]

theorem linkInstruction_eq_ok {tables : Array SwitchTable} {insn : Instruction}
    (h : Linkable starts g tables insn.operation) :
    linkInstruction starts tables insn =
      .ok (⟨insn.pc, relocate g insn.operation⟩, relocateIn g insn.operation tables) := by
  obtain ⟨pc, op⟩ := insn
  cases op with
  | jump jump t =>
    have ht : indexIn starts pc t = .ok (g t) :=
      indexIn_eq_ok.mpr (h t (List.mem_append_left _ List.mem_cons_self))
    change (indexIn starts pc t >>= fun i =>
      pure (Instruction.mk pc (.jump jump i), tables)) = _
    rw [ht]
    rfl
  | tableSwitch n => exact link_switch rfl h
  | lookupSwitch n => exact link_switch rfl h
  | _ => rfl

theorem table?_relocate (op : Operation) : (relocate g op).table? = op.table? := by
  cases op <;> rfl

theorem relocate_of_target {op : Operation} (h : op.target? = none) : relocate g op = op := by
  cases op with
  | jump => cases h
  | _ => rfl

theorem getElem?_relocateIn {op : Operation} {tables : Array SwitchTable} (n : Nat) :
    (relocateIn g op tables)[n]? =
      if op.table? = some n then tables[n]?.map (relocateTable g) else tables[n]? := by
  unfold relocateIn
  rcases op.table? with _ | m
  · simp
  · rw [Array.getElem?_modify]
    simp

/-- The instructions with other positions in their jumps. -/
def relocateAll (g : Nat → Nat) (is : List Instruction) : List Instruction :=
  is.map fun insn => ⟨insn.pc, relocate g insn.operation⟩

/-- Instructions whose positions all have an index are linked, if no two of them share a table. -/
theorem linkInstructions_eq_ok : ∀ {is : List Instruction} (done : Array Instruction)
    {tables : Array SwitchTable}, (is.filterMap (·.operation.table?)).Nodup →
    (∀ insn ∈ is, Linkable starts g tables insn.operation) →
    ∃ tables', linkInstructions starts is done tables =
        .ok (done ++ (relocateAll g is).toArray, tables') ∧
      ∀ n, tables'[n]? = if n ∈ is.filterMap (·.operation.table?)
        then tables[n]?.map (relocateTable g) else tables[n]?
  | [], done, tables, _, _ => ⟨tables, by simp [linkInstructions, relocateAll], by simp⟩
  | insn :: is, done, tables, hnodup, h => by
    obtain ⟨hinsn, hrest⟩ := List.forall_mem_cons.mp h
    have hnodup' : (is.filterMap (·.operation.table?)).Nodup :=
      hnodup.sublist (by rw [List.filterMap_cons]; split <;> simp)
    -- The table of the first instruction is not one of those behind it, so it is linked once.
    have hapart : ∀ n ∈ is.filterMap (·.operation.table?), insn.operation.table? ≠ some n := by
      intro n hn hsome
      simp only [List.filterMap_cons, hsome, List.nodup_cons] at hnodup
      exact hnodup.1 hn
    have hlinkable : ∀ other ∈ is,
        Linkable starts g (relocateIn g insn.operation tables) other.operation := by
      intro other hmem
      have hsame : (other.operation.table?.bind
          fun n => (relocateIn g insn.operation tables)[n]?) =
          other.operation.table?.bind fun n => tables[n]? := by
        rcases hn : other.operation.table? with _ | n
        · rfl
        · rw [Option.bind_some, Option.bind_some, getElem?_relocateIn,
            if_neg (hapart n (List.mem_filterMap.mpr ⟨other, hmem, hn⟩))]
      unfold Linkable
      rw [hsame]
      exact hrest other hmem
    obtain ⟨tables', hlink, htables⟩ := linkInstructions_eq_ok
      (done.push ⟨insn.pc, relocate g insn.operation⟩) hnodup' hlinkable
    refine ⟨tables', ?_, fun n => ?_⟩
    · rw [linkInstructions, linkInstruction_eq_ok hinsn]
      change linkInstructions starts is _ _ = _
      rw [hlink]
      simp [relocateAll]
    · rw [htables, getElem?_relocateIn]
      rcases hn : insn.operation.table? with _ | m
      · simp [hn]
      · by_cases hmem : n ∈ is.filterMap (·.operation.table?)
        · have hne := hapart n hmem
          rw [hn] at hne
          rw [if_pos hmem, if_neg hne, if_pos]
          rw [List.filterMap_cons, hn]
          exact List.mem_cons_of_mem _ hmem
        · rw [if_neg hmem]
          simp only [List.filterMap_cons, hn, List.mem_cons, hmem, or_false, Option.some.injEq,
            eq_comm]

theorem forall₂_map_right {α β γ : Type} {R : α → β → Prop} {S : α → γ → Prop} {f : β → γ}
    {l : List α} {l' : List β} (h : List.Forall₂ R l l')
    (himp : ∀ a ∈ l, ∀ b, R a b → S a (f b)) : List.Forall₂ S l (l'.map f) := by
  rw [List.forall₂_map_right_iff]
  exact ((List.forall₂_and_left _ _).mpr ⟨himp, h⟩).imp fun _ _ h => h.1 _ h.2

/-- What an operation denotes goes along with the positions. -/
theorem Denotes.relocate {pool : Pool} {at? at?' : Label → Option Nat} {st : Statement}
    {op : Operation} {table : Option SwitchTable} (h : Denotes pool at? st op table)
    (hat : ∀ l ∈ st.targets, ∀ t, at? l = some t → at?' l = some (g t)) :
    Denotes pool at?' st (Assembly.relocate g op) (table.map (relocateTable g)) := by
  cases h with
  | jump hform ht => exact .jump hform (hat _ List.mem_cons_self _ ht)
  | farJump hform ht => exact .farJump hform (hat _ List.mem_cons_self _ ht)
  | tableSwitch ht hts =>
    exact .tableSwitch (hat _ List.mem_cons_self _ ht)
      (forall₂_map_right hts fun l hl t => hat l (List.mem_cons_of_mem _ hl) t)
  | @lookupSwitch l pairs sorted k t ts ht hperm hkeys hts =>
    refine .lookupSwitch (hat _ List.mem_cons_self _ ht) hperm (List.pairwise_map.mpr hkeys)
      (forall₂_map_right hts fun p hp q hq => ⟨hq.1, hat p.2 (List.mem_cons_of_mem _ ?_) q.2 hq.2⟩)
    exact List.mem_map_of_mem (hperm.mem_iff.mp hp)
  | op hform =>
    rw [relocate_of_target (InstructionSet.plain_of_form? hform).1]
    exact .op hform
  | pushInt => exact .pushInt
  | pushIntConstant h => exact .pushIntConstant h
  | pushLong => exact .pushLong
  | pushLongConstant h => exact .pushLongConstant h
  | pushFloat => exact .pushFloat
  | pushFloatConstant h => exact .pushFloatConstant h
  | pushDouble => exact .pushDouble
  | pushDoubleConstant h => exact .pushDoubleConstant h
  | pushString h => exact .pushString h
  | pushClass h => exact .pushClass h
  | load => exact .load
  | store => exact .store
  | iinc => exact .iinc
  | member h => exact .member h
  | invokeInterface htype h => exact .invokeInterface htype h
  | onClass h => exact .onClass h
  | newArray h => exact .newArray h
  | newMultiArray h => exact .newMultiArray h

/-- The positions of an operation are those of labels of the statement it denotes. -/
theorem Denotes.targets {pool : Pool} {at? : Label → Option Nat} {st : Statement}
    {op : Operation} {table : Option SwitchTable} (h : Denotes pool at? st op table) :
    ∀ t ∈ op.target?.toList ++ (table.map SwitchTable.allTargets).getD [],
      ∃ l ∈ st.targets, at? l = some t := by
  cases h with
  | jump _ ht | farJump _ ht =>
    rintro t (_ | ⟨_, ⟨⟩⟩)
    exact ⟨_, List.mem_cons_self, ht⟩
  | tableSwitch ht hts =>
    rintro t (_ | ⟨_, hmem⟩)
    · exact ⟨_, List.mem_cons_self, ht⟩
    · obtain ⟨l, hl, hlt⟩ := mem_of_forall₂ hts t hmem
      exact ⟨l, List.mem_cons_of_mem _ hl, hlt⟩
  | lookupSwitch ht hperm hkeys hts =>
    rintro t (_ | ⟨_, hmem⟩)
    · exact ⟨_, List.mem_cons_self, ht⟩
    · obtain ⟨q, hq, rfl⟩ := List.mem_map.mp hmem
      obtain ⟨p, hp, -, hlt⟩ := mem_of_forall₂ hts q hq
      exact ⟨p.2, List.mem_cons_of_mem _ (List.mem_map_of_mem (hperm.mem_iff.mp hp)), hlt⟩
  | op hform =>
    rw [(InstructionSet.plain_of_form? hform).1]
    simp
  | _ => simp [Operation.target?]

/-! ### Agreement -/

theorem Denotes.mono {pool pool' : Pool} {at? : Label → Option Nat} {st : Statement}
    {op : Operation} {table : Option SwitchTable} (hext : pool.Extends pool')
    (h : Denotes pool at? st op table) : Denotes pool' at? st op table := by
  cases h with
  | op hform => exact .op hform
  | jump hform ht => exact .jump hform ht
  | farJump hform ht => exact .farJump hform ht
  | tableSwitch ht hts => exact .tableSwitch ht hts
  | lookupSwitch ht hperm hkeys hts => exact .lookupSwitch ht hperm hkeys hts
  | pushInt => exact .pushInt
  | pushIntConstant h => exact .pushIntConstant (hext.names h)
  | pushLong => exact .pushLong
  | pushLongConstant h => exact .pushLongConstant (hext.names h)
  | pushFloat => exact .pushFloat
  | pushFloatConstant h => exact .pushFloatConstant (hext.names h)
  | pushDouble => exact .pushDouble
  | pushDoubleConstant h => exact .pushDoubleConstant (hext.names h)
  | pushString h => exact .pushString (hext.names h)
  | pushClass h => exact .pushClass (hext.names h)
  | load => exact .load
  | store => exact .store
  | iinc => exact .iinc
  | member h => exact .member (hext.names h)
  | invokeInterface htype h => exact .invokeInterface htype (hext.names h)
  | onClass h => exact .onClass (hext.names h)
  | newArray h => exact .newArray h
  | newMultiArray h => exact .newMultiArray (hext.names h)

/-- What a finished draft begins with: the bounds, and the code that the pieces spell. -/
theorem finish_eq_ok {d : Draft} {bytes : List UInt8} {pool : Pool}
    (h : d.finish = .ok (bytes, pool)) : ∃ code, Spells d d.pieces.reverse code ∧
      bytes2 d.maxStack ++ bytes2 d.maxLocals ++ bytes4 code.length.toUInt32 ++ code <+: bytes ∧
      d.pool.Extends pool := by
  unfold Draft.finish at h
  rcases hcode : d.piecesBytes d.pieces with e | parts
  · rw [hcode] at h
    cases h
  rcases hhandlers : d.handlers.reverse.mapM d.handlerBytes with e | handlers
  · rw [hcode, hhandlers] at h
    cases h
  rw [hcode, hhandlers] at h
  change (if d.lines.isEmpty = true then _ else _) = _ at h
  have hhead (code : List UInt8) (a b : List UInt8) : code <+: code ++ a ++ b :=
    (List.prefix_append _ _).trans (List.prefix_append _ _)
  split at h
  · cases h
    exact ⟨parts.flatten, spells_of_mapM hcode, (hhead _ _ _).trans (List.prefix_append _ _), .refl _⟩
  · cases h
    exact ⟨parts.flatten, spells_of_mapM hcode,
      (hhead _ _ _).trans ((hhead _ _ _).trans ((hhead _ _ _).trans (List.prefix_append _ _))),
      (Pool.gives_index _).grows _⟩

/-- The table of an operation of decoded code, if it is a switch. -/
def Body.tableOf? (b : Bytecode.Body) (op : Operation) : Option SwitchTable :=
  op.table?.bind (b.tables[·]?)

theorem decode_of_link {code : List UInt8} {instructions linked : Array Instruction}
    {tables tables' : Array SwitchTable} {c : Cursor} {last : Instruction} (hne : code.length ≠ 0)
    (hread : readInstructions code.length #[] #[] code.length (Cursor.ofBytes code) =
      .ok (instructions, tables) c)
    (hlink : linkInstructions (startTable code.length instructions) instructions.toList #[] tables =
      .ok (linked, tables'))
    (hlast : linked.back? = some last) (hends : last.operation.endsBlock = true) :
    decode code = .ok ⟨linked, tables', startTable code.length instructions⟩ := by
  unfold decode
  simp only [hne, hread, hlink, hlast, hends, if_false, if_true, bind, Except.bind, pure, Except.pure]

theorem forall₂_getLast? {α β : Type} {R : α → β → Prop} {l : List α} {l' : List β}
    (h : List.Forall₂ R l l') : ∀ a ∈ l.getLast?, ∃ b ∈ l'.getLast?, R a b := by
  intro a ha
  have hrev := List.forall₂_reverse_iff.mpr h
  rw [← List.head?_reverse] at ha
  rcases hl : l.reverse with _ | ⟨x, xs⟩
  · rw [hl] at ha
    cases ha
  · rw [hl] at hrev ha
    cases ha
    rcases hl' : l'.reverse with _ | ⟨y, ys⟩
    · rw [hl'] at hrev
      cases hrev
    · rw [hl'] at hrev
      exact ⟨y, by rw [← List.head?_reverse, hl']; rfl, (List.forall₂_cons.mp hrev).1⟩

/-- Where labels go to: each label gone to has an offset, and the index of the offset is the number of the
instructions in front of the label. -/
theorem ReadAs.index {f : Draft} {statements : List Statement} {tables : Array SwitchTable}
    {is : List Instruction} {code : List UInt8} {ts : List SwitchTable} {l : Label} {i : Nat}
    (has : ReadAs f 0 statements tables is) (hrun : Run code 0 0 is ts)
    (hsmall : code.length ≤ 65535)
    (hinside : ∀ t, f.labels.lookup l = some t → t < code.length)
    (hi : labelIndex l statements = some i)
    (hlt : i < (statements.filter (·.isInstruction)).length) :
    ∃ t, f.labels.lookup l = some t ∧
      (startTable code.length is.toArray)[t]?.join = some i := by
  obtain ⟨t, ht, hpc⟩ := has.labels l i hi
  refine ⟨t, ht, ?_⟩
  rw [has.denotes.length_eq] at hlt
  rw [startTable_eq_some (hrun.pairwise (by omega)) fun insn h => (hrun.le_pc (by omega) insn h).2]
  have hinsn := hpc is[i] (by simp [hlt])
  simp only [List.getElem?_toArray, List.getElem?_eq_getElem hlt, Option.map_some, hinsn,
    Run.toNat_toUInt16 (by omega) (hinside t ht)]

/-- The code of statements that are laid out, decoded. -/
theorem decode_laidOut {d f : Draft} {statements : List Statement} {ps : List Piece}
    {code : List UInt8} (hd : d.size = 0) (hlaid : LaidOut d f statements ps)
    (hspells : Spells f ps code) (hsmall : code.length ≤ 65535)
    (hbound : ∀ st ∈ statements, ∀ l ∈ st.targets, ∃ i, labelIndex l statements = some i ∧
      i < (statements.filter (·.isInstruction)).length)
    (hends : ∃ last ∈ (statements.filter (·.isInstruction)).getLast?, last.endsBlock = true) :
    ∃ body, decode code = .ok body ∧
      List.Forall₂ (fun st insn => Denotes f.pool (labelIndex · statements) st insn.operation
        (Body.tableOf? body insn.operation)) (statements.filter (·.isInstruction))
        body.instructions.toList := by
  obtain ⟨last, hlast, hlastEnds⟩ := hends
  have hsize : f.size = code.length := by rw [hlaid.size, hspells.length, hd, Nat.zero_add]
  have hne : code.length ≠ 0 := by
    have hpos := hlaid.longer (List.ne_nil_of_mem (List.mem_of_getLast? hlast))
    omega
  have hinside : ∀ st ∈ statements, ∀ l ∈ st.targets, ∀ t,
      f.labels.lookup l = some t → t < code.length := by
    intro st hst l hl t ht
    obtain ⟨i, hi, hlt⟩ := hbound st hst l hl
    exact hsize ▸ hlaid.inside l i hi hlt t ht
  have hcode : Laid f code.length 0 statements code :=
    hd ▸ hlaid.laid code.length code hspells (by omega) hsmall hinside
  obtain ⟨is, ts, c, hread, has⟩ := hcode.read #[] #[] code.length (Nat.le_refl _)
  rw [Array.empty_append, Array.empty_append] at hread
  rw [Array.empty_append] at has
  have hrun : Run code 0 0 is ts.toList := run_of_readInstructions hread
  -- The position that linking puts in the place of an offset.
  let g (t : Nat) : Nat := ((startTable code.length is.toArray)[t]?.join).getD 0
  have hindex : ∀ st ∈ statements, ∀ l ∈ st.targets, ∀ t, f.labels.lookup l = some t →
      (startTable code.length is.toArray)[t]?.join = some (g t) ∧
        labelIndex l statements = some (g t) := by
    intro st hst l hl t ht
    obtain ⟨i, hi, hlt⟩ := hbound st hst l hl
    obtain ⟨t', ht', hstart⟩ := has.index hrun hsmall (hinside st hst l hl) hi hlt
    obtain rfl : t = t' := Option.some.inj (ht.symm.trans ht')
    have hg : g t = i := by
      change Option.getD _ 0 = i
      rw [hstart]
      rfl
    rw [hg]
    exact ⟨hstart, hi⟩
  have hlinkable : ∀ insn ∈ is,
      Linkable (startTable code.length is.toArray) g ts insn.operation := by
    intro insn hinsn t ht
    obtain ⟨st, hst, hdenotes⟩ := mem_of_forall₂ has.denotes insn hinsn
    obtain ⟨l, hl, hlt⟩ := hdenotes.targets t ht
    exact (hindex st (List.mem_of_mem_filter hst) l hl t hlt).1
  have hnodup : (is.filterMap (·.operation.table?)).Nodup := by
    rw [hrun.numbers]
    exact List.nodup_range'
  obtain ⟨tables, hlink, htables⟩ := linkInstructions_eq_ok #[] hnodup hlinkable
  rw [Array.empty_append] at hlink
  have htable (n : Nat) : tables[n]? = ts[n]?.map (relocateTable g) := by
    rw [htables, hrun.numbers]
    split
    · rfl
    · next hmem =>
      rw [List.mem_range'_1, Array.length_toList] at hmem
      have hnone : ts[n]? = none := Array.getElem?_eq_none_iff.mpr (by omega)
      rw [hnone]
      rfl
  have hmeant : List.Forall₂ (fun st insn => Denotes f.pool (labelIndex · statements) st
      insn.operation (insn.operation.table?.bind (tables[·]?)))
      (statements.filter (·.isInstruction)) (relocateAll g is) := by
    refine forall₂_map_right has.denotes fun st hst insn hdenotes => ?_
    have hlinked : (relocate g insn.operation).table?.bind (tables[·]?) =
        (insn.operation.table?.bind (ts[·]?)).map (relocateTable g) := by
      rw [table?_relocate]
      cases insn.operation.table? with
      | none => rfl
      | some n => exact htable n
    rw [hlinked]
    exact hdenotes.relocate fun l hl t ht => (hindex st (List.mem_of_mem_filter hst) l hl t ht).2
  obtain ⟨insn, hinsn, hdenotes⟩ := forall₂_getLast? hmeant last hlast
  have hback : (relocateAll g is).toArray.back? = some insn := by
    rw [List.back?_toArray]
    exact hinsn
  have hlast : insn.operation.endsBlock = true := hdenotes.endsBlock.trans hlastEnds
  exact ⟨_, decode_of_link hne hread hlink hback hlast, hmeant⟩

/-- **Assembling and decoding agree**: the code of valid statements, in which every label gone to stands in
front of an instruction and control does not leave at the end, is decoded to one operation for each
instruction among them. It is the one that was meant, with its positions being those of its labels. -/
theorem decode_assembled {entries : List Entry} {argSlots : UInt16} {statements : List Statement}
    {d : Draft} {bytes : List UInt8} {pool : Pool}
    (hadd : statements.foldlM Draft.add (.empty (Pool.holding entries) argSlots) = .ok d)
    (hfinish : d.finish = .ok (bytes, pool)) (hsmall : d.size ≤ 65535)
    (hvalid : ∀ st ∈ statements, st.isInstruction = true → st.Valid)
    (hbound : ∀ st ∈ statements, ∀ l ∈ st.targets, ∃ i, labelIndex l statements = some i ∧
      i < (statements.filter (·.isInstruction)).length)
    (hends : ∃ last ∈ (statements.filter (·.isInstruction)).getLast?, last.endsBlock = true) :
    ∃ code body, code.length = d.size ∧
      bytes2 d.maxStack ++ bytes2 d.maxLocals ++ bytes4 code.length.toUInt32 ++ code <+: bytes ∧
      decode code = .ok body ∧
      List.Forall₂ (fun st insn => Denotes pool (labelIndex · statements) st insn.operation
        (Body.tableOf? body insn.operation)) (statements.filter (·.isInstruction))
        body.instructions.toList := by
  obtain ⟨ps, hlaid⟩ := laidOut_of_foldlM hadd (Pool.sound_holding entries) hvalid
  obtain ⟨code, hspells, hbytes, hext⟩ := finish_eq_ok hfinish
  have hpieces : d.pieces.reverse = ps := by
    rw [hlaid.pieces, List.reverse_append, List.reverse_reverse]
    rfl
  rw [hpieces] at hspells
  have hlength : code.length = d.size := by
    rw [hspells.length, hlaid.size]
    exact (Nat.zero_add _).symm
  obtain ⟨body, hdecode, hdenotes⟩ :=
    decode_laidOut rfl hlaid hspells (by omega) hbound hends
  exact ⟨code, body, hlength, hbytes, hdecode, hdenotes.imp fun _ _ h => h.mono hext⟩

/-- A loop that counts down, and a choice behind it. -/
def countdown : List Statement :=
  [.pushInt 3, .store .int 0, .label 0, .iinc 0 (-1), .load .int 0, .jump 0x9A 0, .pushInt 1000000,
    .lookupSwitch 1 [(7, 0), (-3, 1)], .label 1, .op 0xB1]

/-- The draft of the loop. -/
def countdownDraft : Draft where
  pool := ⟨#[.integer 1000000], [(.integer 1000000, 1)], false⟩
  pieces := ([6, 59, 132, 0, 255, 26, 154].map Piece.byte ++ [Piece.near 6 0] ++
    [18, 1, 171].map Piece.byte ++ [Piece.far 11 1] ++ [0, 0, 0, 2, 255, 255, 255, 253].map Piece.byte ++
    [Piece.far 11 1] ++ [0, 0, 0, 7].map Piece.byte ++ [Piece.far 11 0, Piece.byte 177]).reverse
  size := 37
  labels := [(1, 36), (0, 2)]
  handlers := []
  lines := []
  maxStack := 16
  maxLocals := 1

/-- The loop, assembled. -/
def countdownBytes : List UInt8 :=
  [0, 16, 0, 1, 0, 0, 0, 37, 6, 59, 132, 0, 255, 26, 154, 255, 252, 18, 1, 171, 0, 0, 0, 25, 0, 0, 0,
    2, 255, 255, 255, 253, 0, 0, 0, 25, 0, 0, 0, 7, 255, 255, 255, 247, 177, 0, 0, 0, 0]

theorem add_countdown :
    countdown.foldlM Draft.add (.empty (Pool.holding []) 0) = .ok countdownDraft := by
  cbv

theorem finish_countdown :
    countdownDraft.finish = .ok (countdownBytes, countdownDraft.pool) := by
  cbv

/-- The bytes of the countdown are read back as its statements. -/
theorem decode_countdown : ∃ code body, code.length = 37 ∧
    bytes2 16 ++ bytes2 1 ++ bytes4 code.length.toUInt32 ++ code <+: countdownBytes ∧
    decode code = .ok body ∧
    List.Forall₂ (fun st insn => Denotes countdownDraft.pool (labelIndex · countdown) st
      insn.operation (Body.tableOf? body insn.operation)) (countdown.filter (·.isInstruction))
      body.instructions.toList := by
  refine decode_assembled add_countdown finish_countdown (by decide) ?_ ?_ ⟨.op 0xB1, rfl, ?_⟩
  · simp only [countdown, Statement.isInstruction, Statement.Valid, List.forall_mem_cons]
    exact ⟨fun _ => trivial, fun _ => trivial, fun _ => trivial, fun _ => trivial, fun _ => trivial,
      fun _ => ⟨.ifInt .ne, by cbv⟩, fun _ => trivial, fun _ => by decide, fun _ => trivial,
      fun _ => ⟨.leave none, by cbv⟩, by simp⟩
  · have hlabels : ∀ st ∈ countdown, ∀ l ∈ st.targets, l = 0 ∨ l = 1 := by decide
    intro st hst l hl
    obtain rfl | rfl := hlabels st hst l hl
    · exact ⟨2, rfl, by decide⟩
    · exact ⟨7, rfl, by decide⟩
  · decide +kernel

/-! ### A pool that runs over -/

/-- Entries that leave no index for a constant. -/
def crowd : List Entry := List.replicate 65533 (.raw (.integer 0)) ++ [.long 7]

/-- Code with a constant that is not among them. -/
def crowded : List Statement := [.pushLong 5, .op 0xB1]

theorem holding_append (entries : List Entry) (e : Entry) :
    Pool.holding (entries ++ [e]) = (Pool.entry e (Pool.holding entries)).2 := by
  rw [Pool.holding, List.foldl_append]
  rfl

theorem holding_crowd : ∃ entries : Array Constant, entries.size = 65535 ∧
    Pool.holding crowd = ⟨entries, [(.long 7, 65534)], false⟩ := by
  refine ⟨((Array.replicate 65533 (.integer 0)).push (.long 7)).push .unusable, by simp, ?_⟩
  have hraw : Pool.holding (List.replicate 65533 (.raw (.integer 0))) =
      ⟨#[] ++ Array.replicate 65533 (.integer 0), [], false⟩ := Pool.foldl_raw rfl (by decide)
  rw [crowd, holding_append, hraw, Array.empty_append]
  have h (a : Array Constant) (ha : a.size = 65533) : (Pool.entry (.long 7) ⟨a, [], false⟩).2 =
      ⟨(a.push (.long 7)).push .unusable, [(.long 7, 65534)], false⟩ := by
    simp [Pool.entry, Pool.index, Pool.intern, Pool.add, ha, Constant.isWide, Pool.maxIndex]
  exact h _ (by simp)

theorem entry_crowded {entries : Array Constant} (h : entries.size = 65535) :
    Pool.entry (.long 5) ⟨entries, [(.long 7, 65534)], false⟩ =
      (0, ⟨(entries.push (.long 5)).push .unusable, [(.long 5, 0), (.long 7, 65534)], true⟩) := by
  simp [Pool.entry, Pool.index, Pool.intern, Pool.add, h, Constant.isWide, Pool.maxIndex, List.lookup]
  rfl

/-- The draft of the crowded code. -/
def crowdedDraft (entries : Array Constant) : Draft where
  pool := ⟨(entries.push (.long 5)).push .unusable, [(.long 5, 0), (.long 7, 65534)], true⟩
  pieces := ([0x14, 0, 0, 0xB1].map .byte).reverse
  size := 4
  labels := []
  handlers := []
  lines := []
  maxStack := 16
  maxLocals := 0

theorem add_crowded {entries : Array Constant} (h : entries.size = 65535) :
    crowded.foldlM Draft.add (.empty ⟨entries, [(.long 7, 65534)], false⟩ 0) =
      .ok (crowdedDraft entries) := by
  have hentry : Draft.entry (.empty ⟨entries, [(.long 7, 65534)], false⟩ 0) (.long 5) =
      (0, { crowdedDraft entries with pieces := [], size := 0 }) := by
    unfold Draft.entry
    dsimp only [Draft.empty]
    rw [entry_crowded h]
    rfl
  have hadd : Draft.add (.empty ⟨entries, [(.long 7, 65534)], false⟩ 0) (.pushLong 5) =
      .ok { crowdedDraft entries with pieces := ([0x14, 0, 0].map .byte).reverse, size := 3 } := by
    change Except.ok (if (5 : Int64) = 0 then _ else if (5 : Int64) = 1 then _ else
      Draft.pooled _ 0x14 (.long 5)) = _
    rw [if_neg (by decide), if_neg (by decide), Draft.pooled, hentry]
    rfl
  rw [crowded, List.foldlM_cons, hadd]
  rfl

/-- The crowded code, decoded. -/
def crowdedBody : Bytecode.Body :=
  ⟨#[⟨0, .ldc2 0⟩, ⟨3, .leave none⟩], #[], #[some 0, none, none, some 1]⟩

theorem decode_crowded : decode [0x14, 0, 0, 0xB1] = .ok crowdedBody := by decide +kernel

/-- A pool that has run over loses constants: the index handed out for one leads nowhere, although the
code is assembled and decoded. -/
theorem constant_lost : ∃ d bytes pool,
    crowded.foldlM Draft.add (.empty (Pool.holding crowd) 0) = .ok d ∧
    d.finish = .ok (bytes, pool) ∧ d.size ≤ 65535 ∧
    (∀ st ∈ crowded, st.isInstruction = true → st.Valid) ∧
    (∀ st ∈ crowded, ∀ l ∈ st.targets, ∃ i, labelIndex l crowded = some i ∧
      i < (crowded.filter (·.isInstruction)).length) ∧
    (∃ last ∈ (crowded.filter (·.isInstruction)).getLast?, last.endsBlock = true) ∧
    ¬ ∃ code body, code.length = d.size ∧
      bytes2 d.maxStack ++ bytes2 d.maxLocals ++ bytes4 code.length.toUInt32 ++ code <+: bytes ∧
      decode code = .ok body ∧
      List.Forall₂ (fun st insn => Denotes { pool with overflow := false } (labelIndex · crowded) st
        insn.operation (Body.tableOf? body insn.operation)) (crowded.filter (·.isInstruction))
        body.instructions.toList := by
  obtain ⟨entries, hsize, hholding⟩ := holding_crowd
  have hpieces : (crowdedDraft entries).piecesBytes (crowdedDraft entries).pieces =
      .ok [[0x14], [0], [0], [0xB1]] := rfl
  have hfinish : (crowdedDraft entries).finish = .ok (bytes2 16 ++ bytes2 0 ++ bytes4 4 ++
      [0x14, 0, 0, 0xB1] ++ bytes2 0 ++ bytes2 0, (crowdedDraft entries).pool) := by
    unfold Draft.finish
    rw [hpieces]
    simp [crowdedDraft, bind, Except.bind, pure, Except.pure]
  refine ⟨crowdedDraft entries, _, _, hholding ▸ add_crowded hsize, hfinish,
    show (4 : Nat) ≤ 65535 by decide, ?_, ?_, ⟨.op 0xB1, rfl, by decide +kernel⟩, ?_⟩
  · rintro st (_ | ⟨_, _ | ⟨_, ⟨⟩⟩⟩) -
    · trivial
    · exact ⟨.leave none, by cbv⟩
  · simp [crowded, Statement.targets]
  · rintro ⟨code, body, hlength, ⟨rest, hbytes⟩, hok, hdenotes⟩
    change code.length = 4 at hlength
    obtain rfl : code = [0x14, 0, 0, 0xB1] := by
      rw [hlength] at hbytes
      simp only [List.append_assoc] at hbytes
      exact List.append_inj_left (List.append_cancel_left (List.append_cancel_left
        (List.append_cancel_left hbytes))) hlength
    rw [decode_crowded] at hok
    cases hok
    obtain ⟨hlost, -⟩ := List.forall₂_cons.mp hdenotes
    cases hlost with
    | pushLongConstant hnames => exact absurd (hnames rfl) (by simp [Pool.at?])

end Jvm.Assembly
