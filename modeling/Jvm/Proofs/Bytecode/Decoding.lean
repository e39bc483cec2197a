import Jvm.Proofs.Bytecode.Encoding

/-! # What decoded code says

Reading code from front to back tiles it with instructions (`Run`), and replacing offsets by indices keeps
the instructions apart from their jumps and tables (`Linked`). The main statement, `decodes_of_decode`,
puts both together: the instructions that `decode` gives back tile the code, every position in a jump or a
table is the index of the offset that the code names there, and control does not leave the code at its
end. -/

namespace Jvm.Bytecode

open ClassFile

/-! ### Reading -/

/-- The instructions and tables read from offset `pc` of the code on, where `n` tables come before them;
together they take the bytes up to the end. -/
inductive Run (code : List UInt8) : Nat → Nat → List Instruction → List SwitchTable → Prop
  | done {n : Nat} : Run code code.length n [] []
  | step {pc n : Nat} {op : Operation} {table : Option SwitchTable} {instructions : List Instruction}
      {tables : List SwitchTable} (hlt : pc < code.length) (hraw : Raw code pc n (op, table))
      (hrest : Run code (pc + encodedLength code pc) (n + table.toList.length) instructions tables) :
      Run code pc n (⟨pc.toUInt16, op⟩ :: instructions) (table.toList ++ tables)

theorem reads_instructions (code : List UInt8) (fuel : Nat) :
    ∀ (instructions : Array Instruction) (tables : Array SwitchTable),
      Reads code (readInstructions code.length instructions tables fuel) fun o read _ =>
        code.length ≤ o + fuel → ∃ is ts, read.1.toList = instructions.toList ++ is ∧
          read.2.toList = tables.toList ++ ts ∧ Run code o tables.size is ts := by
  induction fuel with
  | zero =>
    intro instructions tables c read c' hat hok
    cases hok
    refine ⟨hat, fun hfuel => ⟨[], [], by simp, by simp, ?_⟩⟩
    rw [Nat.le_antisymm hat.offset_le hfuel]
    exact .done
  | succ fuel ih =>
    intro instructions tables c read c' hat hok
    rw [readInstructions] at hok
    change (if c.atEnd then _ else _ : Operands _) c = _ at hok
    split at hok
    · next hend =>
      cases hok
      refine ⟨hat, fun _ => ⟨[], [], by simp, by simp, ?_⟩⟩
      rw [Cursor.atEnd, hat.rest, List.isEmpty_iff, List.drop_eq_nil_iff] at hend
      rw [Nat.le_antisymm hat.offset_le hend]
      exact .done
    · refine (((reads_instruction ⟨c.offset, code.length⟩ tables.size).bind
        (R := fun o read _ => o = c.offset → code.length ≤ o + (fuel + 1) →
          ∃ is ts, read.1.toList = instructions.toList ++ is ∧
            read.2.toList = tables.toList ++ ts ∧ Run code o tables.size is ts) ?_)
        c read c' hat hok).imp_right fun h => h rfl
      rintro ⟨op, table⟩
      refine (ih _ _).mono ?_
      intro o' read o'' hnext o hread hstart hfuel
      obtain ⟨hlt, ho', hraw⟩ := hread hstart
      dsimp only at hstart ho' hraw
      have hpos := encodedLength_pos code c.offset
      obtain ⟨is, ts, his, hts, hrun⟩ := hnext (by omega)
      refine ⟨⟨c.offset.toUInt16, op⟩ :: is, table.toList ++ ts, ?_, ?_, ?_⟩
      · rw [his, Array.toList_push, List.append_assoc]
        rfl
      · rw [hts]
        cases table <;> simp
      · rw [hstart] at hlt ⊢
        rw [ho'] at hrun
        cases table with
        | none => exact .step hlt hraw hrun
        | some t => exact .step hlt hraw (by simpa using hrun)

theorem run_of_readInstructions {code : List UInt8} {instructions : Array Instruction}
    {tables : Array SwitchTable} {c : Cursor}
    (hread : readInstructions code.length #[] #[] code.length (Cursor.ofBytes code) =
      .ok (instructions, tables) c) :
    Run code 0 0 instructions.toList tables.toList := by
  have hat : At code (Cursor.ofBytes code) := ⟨rfl, Nat.zero_le _⟩
  obtain ⟨is, ts, his, hts, hrun⟩ :=
    (reads_instructions code code.length #[] #[] _ _ _ hat hread).2 (Nat.le_add_left _ _)
  rw [show instructions.toList = is from his, show tables.toList = ts from hts]
  exact hrun

namespace Run

variable {code : List UInt8} {pc n : Nat} {is : List Instruction} {ts : List SwitchTable}

theorem toNat_toUInt16 (hsmall : code.length < 65536) (hlt : pc < code.length) :
    pc.toUInt16.toNat = pc := by
  rw [Nat.toUInt16_eq, UInt16.toNat_ofNat']
  omega

theorem le_pc (hrun : Run code pc n is ts) (hsmall : code.length < 65536) :
    ∀ insn ∈ is, pc ≤ insn.pc.toNat ∧ insn.pc.toNat < code.length := by
  induction hrun with
  | done => simp
  | step hlt hraw hrest ih =>
    rintro insn (_ | ⟨_, hmem⟩)
    · rw [toNat_toUInt16 hsmall hlt]
      exact ⟨Nat.le_refl _, hlt⟩
    · obtain ⟨hle, hpc⟩ := ih insn hmem
      exact ⟨by omega, hpc⟩

/-- The instructions begin one behind the other. -/
theorem pairwise (hrun : Run code pc n is ts) (hsmall : code.length < 65536) :
    is.Pairwise fun a b => a.pc < b.pc := by
  induction hrun with
  | done => exact .nil
  | @step pc n op table is ts hlt hraw hrest ih =>
    refine .cons (fun insn hmem => ?_) ih
    have hpc := (hrest.le_pc hsmall insn hmem).1
    have hpos := encodedLength_pos code pc
    rw [UInt16.lt_iff_toNat_lt, toNat_toUInt16 hsmall hlt]
    omega

theorem head (hrun : Run code pc n is ts) (hsmall : code.length < 65536) :
    (is.head?.map (·.pc.toNat)).getD code.length = pc := by
  cases hrun with
  | done => rfl
  | step hlt hraw hrest => exact toNat_toUInt16 hsmall hlt

/-- Each instruction ends where the next one begins, and the last one at the end of the code. -/
theorem tiled (hrun : Run code pc n is ts) (hsmall : code.length < 65536) :
    ∀ (i : Nat) (insn : Instruction), is[i]? = some insn →
      insn.pc.toNat + encodedLength code insn.pc.toNat =
        (is[i + 1]?.map (·.pc.toNat)).getD code.length := by
  induction hrun with
  | done => simp
  | @step pc n op table is ts hlt hraw hrest ih =>
    rintro (_ | i) insn hget
    · cases hget
      rw [toNat_toUInt16 hsmall hlt, ← hrest.head hsmall, List.head?_eq_getElem?]
      rfl
    · exact ih i insn hget

/-- The switches are numbered in order. -/
theorem numbers (hrun : Run code pc n is ts) :
    is.filterMap (·.operation.table?) = List.range' n ts.length := by
  induction hrun with
  | done => rfl
  | @step pc n op table is ts hlt hraw hrest ih =>
    have hnumber : op.table? = table.map fun _ => n := hraw.number
    cases table with
    | none => simpa [List.filterMap_cons, hnumber] using ih
    | some t =>
      simp only [List.filterMap_cons, hnumber, Option.map_some, Option.toList_some,
        List.length_append, List.length_singleton] at ih ⊢
      rw [ih, Nat.add_comm 1, List.range'_succ]

/-- Each instruction names the offsets that the code names there. -/
theorem raw (hrun : Run code pc n is ts) (hsmall : code.length < 65536) :
    ∀ insn ∈ is, ∃ m table, Raw code insn.pc.toNat m (insn.operation, table) ∧
      ∀ t ∈ table, n ≤ m ∧ ts[m - n]? = some t := by
  induction hrun with
  | done => simp
  | @step pc n op table is ts hlt hraw hrest ih =>
    rintro insn (_ | ⟨_, hmem⟩)
    · refine ⟨n, table, by rw [toNat_toUInt16 hsmall hlt]; exact hraw, ?_⟩
      rintro t ht
      obtain rfl : table = some t := ht
      simp
    · obtain ⟨m, table', hraw', htable⟩ := ih insn hmem
      refine ⟨m, table', hraw', fun t ht => ?_⟩
      obtain ⟨hle, hget⟩ := htable t ht
      refine ⟨by omega, ?_⟩
      rw [List.getElem?_append_right (by omega), ← hget]
      congr 1
      omega

end Run

/-! ### Linking -/

section Linking

variable {starts : Array (Option Nat)}

/-- The index that takes the place of an offset in a jump or a table. -/
def indexIn (starts : Array (Option Nat)) (pc : UInt16) (target : Nat) : Except DecodeFault Nat :=
  match starts[target]?.join with
  | some i => .ok i
  | none => .error (.badTarget pc.toNat target)

theorem indexIn_eq_ok {pc : UInt16} {target i : Nat} :
    indexIn starts pc target = .ok i ↔ starts[target]?.join = some i := by
  unfold indexIn
  split <;> simp_all

theorem forall₂_of_mapM {α β ε : Type} {f : α → Except ε β} :
    ∀ {l : List α} {l' : List β}, l.mapM f = .ok l' → List.Forall₂ (fun a b => f a = .ok b) l l'
  | [], l', h => by
    cases h
    exact .nil
  | a :: l, l', h => by
    rw [List.mapM_cons] at h
    rcases ha : f a with e | b
    · rw [ha] at h
      cases h
    · rcases hl : l.mapM f with e | bs
      · rw [ha, hl] at h
        cases h
      · rw [ha, hl] at h
        cases h
        exact .cons ha (forall₂_of_mapM hl)

/-- A table with every position replaced. -/
theorem forall₂_of_table_mapM {ε : Type} {f : Nat → Except ε Nat} {t t' : SwitchTable}
    (h : t.mapM f = .ok t') :
    List.Forall₂ (fun a b => f a = .ok b) t.allTargets t'.allTargets ∧ (t.Sorted → t'.Sorted) := by
  obtain ⟨default, cases⟩ := t
  unfold SwitchTable.mapM at h
  rcases hd : f default with e | d
  · simp only [hd] at h
    cases h
  · simp only [hd] at h
    cases cases with
    | range low targets =>
      rcases ht : targets.mapM f with e | targets'
      · simp only [ht] at h
        cases h
      · simp only [ht] at h
        cases h
        exact ⟨.cons hd (forall₂_of_mapM ht), id⟩
    | pairs pairs =>
      rcases hp : pairs.toList.mapM (fun p => do return (p.1, ← f p.2)) with e | pairs'
      · simp only [hp] at h
        cases h
      · simp only [hp] at h
        cases h
        have hpairs : List.Forall₂ (fun p q => p.1 = q.1 ∧ f p.2 = .ok q.2) pairs.toList pairs' := by
          refine (forall₂_of_mapM hp).imp fun p q hpq => ?_
          rcases hf : f p.2 with e | i
          · rw [hf] at hpq
            cases hpq
          · rw [hf] at hpq
            cases hpq
            exact ⟨rfl, rfl⟩
        refine ⟨.cons hd ?_, fun hsorted => ?_⟩
        · rw [List.forall₂_map_left_iff, List.forall₂_map_right_iff]
          exact hpairs.imp fun p q h => h.2
        · have hkeys : pairs.toList.map (·.1) = pairs'.map (·.1) := by
            rw [← List.forall₂_eq_eq_eq, List.forall₂_map_left_iff, List.forall₂_map_right_iff]
            exact hpairs.imp fun p q h => h.1
          change pairs'.Pairwise fun a b => a.1 < b.1
          rw [← List.pairwise_map (f := fun p : Int32 × Nat => p.1) (R := (· < ·)), ← hkeys,
            List.pairwise_map]
          exact hsorted

/-- An instruction with its jump and its table replaced, where `tables` and `tables'` are the tables
before and after. -/
structure Linked (starts : Array (Option Nat)) (tables tables' : Array SwitchTable)
    (old new : Instruction) : Prop where
  pc : new.pc = old.pc
  table : new.operation.table? = old.operation.table?
  ends : new.operation.endsBlock = old.operation.endsBlock
  target : List.Forall₂ (fun t i => starts[t]?.join = some i) old.operation.target?.toList
    new.operation.target?.toList
  targets : ∀ n ∈ old.operation.table?, ∀ t, tables[n]? = some t → ∃ t', tables'[n]? = some t' ∧
    List.Forall₂ (fun t i => starts[t]?.join = some i) t.allTargets t'.allTargets ∧
    (t.Sorted → t'.Sorted)

/-- An instruction that is neither a jump nor a switch is linked as it is. -/
theorem Linked.straight {tables : Array SwitchTable} {insn : Instruction}
    (htarget : insn.operation.target? = none) (htable : insn.operation.table? = none) :
    Linked starts tables tables insn insn where
  pc := rfl
  table := rfl
  ends := rfl
  target := by rw [htarget]; exact .nil
  targets := by simp [htable]

theorem linked_of_switch {tables tables' : Array SwitchTable} {old new : Instruction} {n : Nat}
    (hnumber : old.operation.table? = some n) (htarget : old.operation.target? = none)
    (h : (match tables[n]? with
      | some table => do
        return (old, tables.setIfInBounds n (← table.mapM (indexIn starts old.pc)))
      | none => return (old, tables)) = Except.ok (new, tables')) :
    Linked starts tables tables' old new ∧ tables'.size = tables.size ∧
      ∀ m, m ∉ old.operation.table? → tables'[m]? = tables[m]? := by
  split at h
  · next table hget =>
    rcases hmap : table.mapM (indexIn starts old.pc) with e | table'
    · rw [hmap] at h
      cases h
    · rw [hmap] at h
      cases h
      obtain ⟨htargets, hsorted⟩ := forall₂_of_table_mapM hmap
      obtain ⟨hbound, -⟩ := Array.getElem?_eq_some_iff.mp hget
      refine ⟨⟨rfl, rfl, rfl, by rw [htarget]; exact .nil, ?_⟩, by simp, fun m hm => ?_⟩
      · rintro m hm t ht
        obtain rfl : n = m := Option.some.inj (hnumber.symm.trans hm)
        obtain rfl : table = t := Option.some.inj (hget.symm.trans ht)
        exact ⟨table', by simp [hbound], htargets.imp fun _ _ => indexIn_eq_ok.mp, hsorted⟩
      · have hne : n ≠ m := fun h => hm (h ▸ hnumber)
        exact Array.getElem?_setIfInBounds_ne hne
  · next hget =>
    cases h
    refine ⟨⟨rfl, rfl, rfl, by rw [htarget]; exact .nil, ?_⟩, rfl, fun m _ => rfl⟩
    rintro m hm t ht
    obtain rfl : n = m := Option.some.inj (hnumber.symm.trans hm)
    exact absurd (hget.symm.trans ht) (by simp)

/-- One instruction is linked, and no other one's table is touched. -/
theorem linked_of_linkInstruction {tables tables' : Array SwitchTable} {old new : Instruction}
    (h : linkInstruction starts tables old = .ok (new, tables')) :
    Linked starts tables tables' old new ∧ tables'.size = tables.size ∧
      ∀ n, n ∉ old.operation.table? → tables'[n]? = tables[n]? := by
  obtain ⟨pc, op⟩ := old
  cases op with
  | jump jump target =>
    change (indexIn starts pc target >>= fun i =>
      pure (Instruction.mk pc (.jump jump i), tables)) = Except.ok (new, tables') at h
    rcases hi : indexIn starts pc target with e | i
    · rw [hi] at h
      cases h
    · rw [hi] at h
      cases h
      have hlinked : Linked starts tables tables ⟨pc, .jump jump target⟩ ⟨pc, .jump jump i⟩ := {
        pc := rfl
        table := rfl
        ends := by cases jump <;> rfl
        target := .cons (indexIn_eq_ok.mp hi) .nil
        targets := by simp [Operation.table?] }
      exact ⟨hlinked, rfl, fun _ _ => rfl⟩
  | tableSwitch n => exact linked_of_switch rfl rfl h
  | lookupSwitch n => exact linked_of_switch rfl rfl h
  | _ =>
    cases h
    exact ⟨.straight rfl rfl, rfl, fun _ _ => rfl⟩

/-- All instructions are linked, if no two of them share a table. -/
theorem linked_of_linkInstructions : ∀ {old : List Instruction} {done done' : Array Instruction}
    {tables tables' : Array SwitchTable},
    (old.filterMap (·.operation.table?)).Nodup →
    linkInstructions starts old done tables = .ok (done', tables') →
    ∃ new, done'.toList = done.toList ++ new ∧ tables'.size = tables.size ∧
      List.Forall₂ (Linked starts tables tables') old new ∧
      ∀ n, n ∉ old.filterMap (·.operation.table?) → tables'[n]? = tables[n]?
  | [], done, done', tables, tables', _, h => by
    cases h
    exact ⟨[], by simp, rfl, .nil, fun _ _ => rfl⟩
  | insn :: old, done, done', tables, tables', hnodup, h => by
    rw [linkInstructions] at h
    rcases hlink : linkInstruction starts tables insn with e | ⟨new, middle⟩
    · rw [hlink] at h
      cases h
    · rw [hlink] at h
      change linkInstructions starts old (done.push new) middle = _ at h
      obtain ⟨hfirst, hsize, hothers⟩ := linked_of_linkInstruction hlink
      have hrest : (old.filterMap (·.operation.table?)).Nodup :=
        hnodup.sublist (by rw [List.filterMap_cons]; split <;> simp)
      obtain ⟨news, hnews, hsize', hlinked, hothers'⟩ := linked_of_linkInstructions hrest h
      -- The table of the first instruction is not one of those behind it, so it is linked once.
      have hapart : ∀ n, n ∈ insn.operation.table? →
          n ∉ old.filterMap (·.operation.table?) := by
        intro n hn
        rw [Option.mem_def] at hn
        simp only [List.filterMap_cons, hn, List.nodup_cons] at hnodup
        exact hnodup.1
      refine ⟨new :: news, by simp [hnews], hsize'.trans hsize, .cons ?_ ?_, fun n hn => ?_⟩
      · refine ⟨hfirst.pc, hfirst.table, hfirst.ends, hfirst.target, fun n hn t ht => ?_⟩
        obtain ⟨t', ht', hrest⟩ := hfirst.targets n hn t ht
        exact ⟨t', (hothers' n (hapart n hn)).trans ht', hrest⟩
      · refine ((List.forall₂_and_left _ _).mpr ⟨fun a ha => ha, hlinked⟩).imp ?_
        rintro a b ⟨ha, hab⟩
        refine ⟨hab.pc, hab.table, hab.ends, hab.target, fun n hn t ht => hab.targets n hn t ?_⟩
        rw [hothers n fun h => hapart n h (List.mem_filterMap.mpr ⟨a, ha, hn⟩)]
        exact ht
      · have hold : n ∉ old.filterMap (·.operation.table?) := fun h =>
          hn (by rw [List.filterMap_cons]; split <;> simp [h])
        have hinsn : n ∉ insn.operation.table? := fun h =>
          hn (by rw [List.filterMap_cons, Option.mem_def.mp h]; exact List.mem_cons_self)
        rw [hothers' n hold, hothers n hinsn]

/-! ### Starts -/

/-- The table of starts after the instructions from the `k`-th on. -/
theorem starts_foldl : ∀ (is : List Instruction) (k : Nat) (starts : Array (Option Nat)),
    is.Pairwise (fun a b => a.pc < b.pc) → (∀ insn ∈ is, insn.pc.toNat < starts.size) →
    ∀ pc i, ((is.zipIdx k).foldl
        (fun starts (insn, i) => starts.setIfInBounds insn.pc.toNat (some i)) starts)[pc]?.join =
      some i ↔ (∃ j, (is[j]?.map (·.pc.toNat)) = some pc ∧ i = k + j) ∨
        ((∀ insn ∈ is, insn.pc.toNat ≠ pc) ∧ starts[pc]?.join = some i)
  | [], k, starts, _, _, pc, i => by simp
  | insn :: is, k, starts, hpair, hbound, pc, i => by
    obtain ⟨hfirst, hrest⟩ := List.pairwise_cons.mp hpair
    have hinsn : insn.pc.toNat < starts.size := hbound insn List.mem_cons_self
    rw [List.zipIdx_cons, List.foldl_cons, starts_foldl is (k + 1) _ hrest (fun a ha => by
      simpa using hbound a (List.mem_cons_of_mem _ ha))]
    have hne : ∀ a ∈ is, a.pc.toNat ≠ insn.pc.toNat := fun a ha h =>
      absurd (UInt16.lt_iff_toNat_lt.mp (hfirst a ha)) (by omega)
    by_cases hpc : insn.pc.toNat = pc
    · subst hpc
      constructor
      · rintro (⟨j, hj, rfl⟩ | ⟨-, hget⟩)
        · obtain ⟨a, ha, heq⟩ := Option.map_eq_some_iff.mp hj
          exact absurd heq (hne a (List.mem_of_getElem? ha))
        · simp only [Array.getElem?_setIfInBounds_self_of_lt hinsn, Option.join_some,
            Option.some.injEq] at hget
          exact .inl ⟨0, rfl, hget.symm⟩
      · rintro (⟨j, hj, rfl⟩ | ⟨habsent, -⟩)
        · cases j with
          | zero => exact .inr ⟨hne, by simp [hinsn]⟩
          | succ j =>
            obtain ⟨a, ha, heq⟩ := Option.map_eq_some_iff.mp hj
            exact absurd heq (hne a (List.mem_of_getElem? ha))
        · exact absurd rfl (habsent insn List.mem_cons_self)
    · rw [Array.getElem?_setIfInBounds_ne hpc]
      constructor
      · rintro (⟨j, hj, rfl⟩ | ⟨habsent, hget⟩)
        · exact .inl ⟨j + 1, hj, by omega⟩
        · refine .inr ⟨?_, hget⟩
          rintro a (_ | ⟨_, ha⟩)
          exacts [hpc, habsent a ha]
      · rintro (⟨j, hj, rfl⟩ | ⟨habsent, hget⟩)
        · cases j with
          | zero => exact absurd (Option.some.inj hj) hpc
          | succ j => exact .inl ⟨j, hj, by omega⟩
        · exact .inr ⟨fun a ha => habsent a (List.mem_cons_of_mem _ ha), hget⟩

theorem startTable_eq_some {length : Nat} {instructions : Array Instruction}
    (hpair : instructions.toList.Pairwise fun a b => a.pc < b.pc)
    (hbound : ∀ insn ∈ instructions.toList, insn.pc.toNat < length) (pc i : Nat) :
    (startTable length instructions)[pc]?.join = some i ↔
      (instructions[i]?.map (·.pc.toNat)) = some pc := by
  rw [startTable, starts_foldl _ _ _ hpair (by simpa using hbound)]
  simp only [Nat.zero_add, exists_eq_right', Array.getElem?_toList, or_iff_left_iff_imp]
  rintro ⟨-, hget⟩
  rw [Array.getElem?_replicate] at hget
  split at hget <;> cases hget

end Linking

/-! ### Decoded code -/

/-- The positions in the jump or the table of an operation of decoded code. -/
def Body.targets (b : Body) (op : Operation) : List Nat :=
  op.target?.toList ++ ((op.table?.bind (b.tables[·]?)).map SwitchTable.allTargets).getD []

/-- **What decoded code says about the bytes it was decoded from.** -/
structure Body.Decodes (b : Body) (code : List UInt8) : Prop where
  first : b.pcOf? 0 = some 0
  increasing : ∀ i j pc pc', i < j → b.pcOf? i = some pc → b.pcOf? j = some pc' → pc < pc'
  tiled : ∀ i pc, b.pcOf? i = some pc →
    pc.toNat + encodedLength code pc.toNat = ((b.pcOf? (i + 1)).map (·.toNat)).getD code.length
  -- The offsets with an index are those where an instruction begins, and it is the index of that
  -- instruction.
  index : ∀ pc i, b.indexOf? pc = some i ↔ (b.pcOf? i).map (·.toNat) = some pc
  -- The positions in jumps and tables are the indices of the instructions that begin at the offsets
  -- which the code names.
  targets : ∀ (i : Nat) (insn : Instruction), b.instructions[i]? = some insn →
    (b.targets insn.operation).map (fun j => (b.pcOf? j).map fun pc => (pc.toNat : Int)) =
      (namedOffsets code insn.pc.toNat).map some
  table : ∀ i op n, b.operation? i = some op → op.table? = some n → n < b.tables.size
  distinct : ∀ i j op op' n, b.operation? i = some op → b.operation? j = some op' →
    op.table? = some n → op'.table? = some n → i = j
  owned : ∀ n < b.tables.size, ∃ i op, b.operation? i = some op ∧ op.table? = some n
  sorted : ∀ t ∈ b.tables, t.Sorted
  ends : ∃ op, b.operation? (b.size - 1) = some op ∧ op.endsBlock = true

/-- The phases of a decoding that succeeds. -/
theorem decode_eq_ok {code : List UInt8} {body : Body} (hdecode : decode code = .ok body) :
    ∃ instructions tables c,
      readInstructions code.length #[] #[] code.length (Cursor.ofBytes code) =
        .ok (instructions, tables) c ∧
      body.starts = startTable code.length instructions ∧
      linkInstructions body.starts instructions.toList #[] tables =
        .ok (body.instructions, body.tables) ∧
      ∃ last, body.instructions.back? = some last ∧ last.operation.endsBlock = true := by
  unfold decode at hdecode
  simp only [bind, Except.bind, pure, Except.pure, throw, throwThe, MonadExceptOf.throw] at hdecode
  split at hdecode
  · cases hdecode
  split at hdecode
  · cases hdecode
  next instructions tables c hread =>
  split at hdecode
  · cases hdecode
  next linked hlink =>
  split at hdecode
  swap
  · cases hdecode
  next last hlast =>
  split at hdecode
  swap
  · cases hdecode
  next hends =>
  cases hdecode
  exact ⟨instructions, tables, c, hread, rfl, hlink, last, hlast, hends⟩

theorem exists_of_forall₂ {α β : Type} {R : α → β → Prop} {l : List α} {l' : List β}
    (h : List.Forall₂ R l l') {i : Nat} {b : β} (hget : l'[i]? = some b) :
    ∃ a, l[i]? = some a ∧ R a b := by
  induction h generalizing i with
  | nil => cases hget
  | cons hab _ ih =>
    cases i with
    | zero => exact ⟨_, rfl, Option.some.inj hget ▸ hab⟩
    | succ i => exact ih hget

/-- A body whose instructions come from reading code and linking what was read. -/
structure Body.LinkedFrom (b : Body) (code : List UInt8) (is : List Instruction)
    (ts : Array SwitchTable) : Prop where
  small : code.length < 65536
  run : Run code 0 0 is ts.toList
  linked : List.Forall₂ (Linked b.starts ts b.tables) is b.instructions.toList
  size : b.tables.size = ts.size
  starts : ∀ pc i, b.indexOf? pc = some i ↔ is[i]?.map (·.pc.toNat) = some pc

namespace Body.LinkedFrom

variable {b : Body} {code : List UInt8} {is : List Instruction} {ts : Array SwitchTable}

/-- Each instruction stands where it was read. -/
theorem old (hb : b.LinkedFrom code is ts) {i : Nat} {new : Instruction}
    (hget : b.instructions[i]? = some new) :
    ∃ old, is[i]? = some old ∧ Linked b.starts ts b.tables old new :=
  exists_of_forall₂ hb.linked (by rwa [Array.getElem?_toList])

theorem pcOf? (hb : b.LinkedFrom code is ts) (i : Nat) : b.pcOf? i = is[i]?.map (·.pc) := by
  have hpcs : b.instructions.toList.map (·.pc) = is.map (·.pc) := by
    rw [← List.forall₂_eq_eq_eq, List.forall₂_map_left_iff, List.forall₂_map_right_iff]
    exact hb.linked.flip.imp fun _ _ h => h.pc
  rw [Body.pcOf?, ← Array.getElem?_toList, ← List.getElem?_map, hpcs, List.getElem?_map]

theorem index (hb : b.LinkedFrom code is ts) (pc i : Nat) :
    b.indexOf? pc = some i ↔ (b.pcOf? i).map (·.toNat) = some pc := by
  rw [hb.starts, hb.pcOf?, Option.map_map]
  rfl

/-- The positions that linking puts in the place of offsets. -/
theorem map_pcOf? (hb : b.LinkedFrom code is ts) {offsets positions : List Nat}
    (h : List.Forall₂ (fun t i => b.starts[t]?.join = some i) offsets positions) :
    positions.map (fun j => (b.pcOf? j).map fun pc => (pc.toNat : Int)) =
      (offsets.map Nat.cast).map some := by
  induction h with
  | nil => rfl
  | @cons t i offsets positions hti _ ih =>
    have hpc : (b.pcOf? i).map (·.toNat) = some t := (hb.index t i).mp hti
    obtain ⟨pc, hget, rfl⟩ := Option.map_eq_some_iff.mp hpc
    rw [List.map_cons, ih, hget]
    rfl

theorem targets (hb : b.LinkedFrom code is ts) {i : Nat} {insn : Instruction}
    (hget : b.instructions[i]? = some insn) :
    (b.targets insn.operation).map (fun j => (b.pcOf? j).map fun pc => (pc.toNat : Int)) =
      (namedOffsets code insn.pc.toNat).map some := by
  obtain ⟨old, hold, hlinked⟩ := hb.old hget
  obtain ⟨m, table, hraw, htable⟩ := hb.run.raw hb.small old (List.mem_of_getElem? hold)
  have hpositions : List.Forall₂ (fun t i => b.starts[t]?.join = some i)
      (old.operation.target?.toList ++ (table.map SwitchTable.allTargets).getD [])
      (b.targets insn.operation) := by
    refine List.rel_append hlinked.target ?_
    have hnumber : old.operation.table? = table.map fun _ => m := hraw.number
    rw [hlinked.table, hnumber]
    cases table with
    | none => exact .nil
    | some t =>
      obtain ⟨-, ht⟩ := htable t rfl
      rw [Array.getElem?_toList] at ht
      obtain ⟨t', ht', htargets, -⟩ := hlinked.targets m hnumber t ht
      simpa [ht'] using htargets
  rw [hb.map_pcOf? hpositions, hlinked.pc, ← hraw.offsets]
  cases table <;> simp [SwitchTable.offsets]

/-- The switches read are numbered from 0 on. -/
theorem mem_numbers (hb : b.LinkedFrom code is ts) (n : Nat) :
    n ∈ is.filterMap (·.operation.table?) ↔ n < b.tables.size := by
  rw [hb.run.numbers, List.mem_range'_1, hb.size]
  simp

theorem number (hb : b.LinkedFrom code is ts) {i n : Nat} {op : Operation}
    (hop : b.operation? i = some op) (htable : op.table? = some n) :
    ∃ old, is[i]? = some old ∧ old.operation.table? = some n := by
  obtain ⟨new, hnew, rfl⟩ := Option.map_eq_some_iff.mp hop
  obtain ⟨old, hold, hlinked⟩ := hb.old hnew
  exact ⟨old, hold, hlinked.table ▸ htable⟩

theorem table (hb : b.LinkedFrom code is ts) {i n : Nat} {op : Operation}
    (hop : b.operation? i = some op) (htable : op.table? = some n) : n < b.tables.size := by
  obtain ⟨old, hold, hn⟩ := hb.number hop htable
  exact (hb.mem_numbers n).mp (List.mem_filterMap.mpr ⟨old, List.mem_of_getElem? hold, hn⟩)

theorem distinct (hb : b.LinkedFrom code is ts) {i j n : Nat} {op op' : Operation}
    (hi : b.operation? i = some op) (hj : b.operation? j = some op') (hn : op.table? = some n)
    (hn' : op'.table? = some n) : i = j := by
  obtain ⟨a, ha, han⟩ := hb.number hi hn
  obtain ⟨c, hc, hcn⟩ := hb.number hj hn'
  have hnodup : (is.filterMap (·.operation.table?)).Nodup := by
    rw [hb.run.numbers]
    exact List.nodup_range'
  have hapart := List.pairwise_iff_getElem.mp (List.pairwise_filterMap.mp hnodup)
  obtain ⟨hi', rfl⟩ := List.getElem?_eq_some_iff.mp ha
  obtain ⟨hj', rfl⟩ := List.getElem?_eq_some_iff.mp hc
  rcases Nat.lt_trichotomy i j with h | h | h
  · exact absurd rfl (hapart i j hi' hj' h n han n hcn)
  · exact h
  · exact absurd rfl (hapart j i hj' hi' h n hcn n han)

theorem owned (hb : b.LinkedFrom code is ts) {n : Nat} (hn : n < b.tables.size) :
    ∃ (i : Nat) (old new : Instruction), is[i]? = some old ∧ b.instructions[i]? = some new ∧
      Linked b.starts ts b.tables old new ∧ old.operation.table? = some n := by
  obtain ⟨old, hmem, htable⟩ := List.mem_filterMap.mp ((hb.mem_numbers n).mpr hn)
  obtain ⟨i, hi⟩ := List.mem_iff_getElem?.mp hmem
  obtain ⟨new, hnew, hlinked⟩ := exists_of_forall₂ hb.linked.flip hi
  exact ⟨i, old, new, hi, by rwa [← Array.getElem?_toList], hlinked, htable⟩

theorem sorted (hb : b.LinkedFrom code is ts) {t : SwitchTable} (ht : t ∈ b.tables) : t.Sorted := by
  obtain ⟨n, hn⟩ := Array.mem_iff_getElem?.mp ht
  obtain ⟨hlt, -⟩ := Array.getElem?_eq_some_iff.mp hn
  obtain ⟨i, old, new, hold, -, hlinked, htable⟩ := hb.owned hlt
  obtain ⟨m, table, hraw, htables⟩ := hb.run.raw hb.small old (List.mem_of_getElem? hold)
  have hnumber : old.operation.table? = table.map fun _ => m := hraw.number
  rw [htable] at hnumber
  cases table with
  | none => cases hnumber
  | some t₀ =>
    obtain rfl : n = m := Option.some.inj hnumber
    obtain ⟨-, ht₀⟩ := htables t₀ rfl
    rw [Array.getElem?_toList] at ht₀
    obtain ⟨t', ht', -, hsorted⟩ := hlinked.targets n htable t₀ ht₀
    obtain rfl : t = t' := Option.some.inj (hn.symm.trans ht')
    exact hsorted (hraw.sorted t₀ rfl)

end Body.LinkedFrom

theorem linkedFrom_of_decode {code : List UInt8} {body : Body} (hsmall : code.length < 65536)
    (hdecode : decode code = .ok body) : ∃ is ts, body.LinkedFrom code is ts := by
  obtain ⟨instructions, tables, c, hread, hstarts, hlink, -⟩ := decode_eq_ok hdecode
  have hrun := run_of_readInstructions hread
  have hnodup : (instructions.toList.filterMap (·.operation.table?)).Nodup := by
    rw [hrun.numbers]
    exact List.nodup_range'
  obtain ⟨new, hnew, hsize, hlinked, -⟩ := linked_of_linkInstructions hnodup hlink
  refine ⟨instructions.toList, tables, hsmall, hrun, ?_, hsize, fun pc i => ?_⟩
  · rw [hnew]
    exact hlinked
  · rw [Body.indexOf?, hstarts, startTable_eq_some (hrun.pairwise hsmall)
      (fun insn h => (hrun.le_pc hsmall insn h).2), Array.getElem?_toList]

/-- **A successful decoding says of the code what its bytes say**: the instructions tile it, offsets and
indices correspond, jumps and switches lead where the bytes say, and nothing follows the last
instruction. -/
theorem decodes_of_decode {code : List UInt8} {body : Body} (hsmall : code.length ≤ 65535)
    (hdecode : decode code = .ok body) : body.Decodes code := by
  have hlt : code.length < 65536 := by omega
  obtain ⟨is, ts, hb⟩ := linkedFrom_of_decode hlt hdecode
  obtain ⟨-, -, -, -, -, -, last, hlast, hends⟩ := decode_eq_ok hdecode
  rw [Array.back?_eq_getElem?] at hlast
  refine ⟨?_, ?_, ?_, hb.index, fun i insn => hb.targets, fun i op n => hb.table,
    fun i j op op' n => hb.distinct, ?_, fun t => hb.sorted, ⟨last.operation, ?_, hends⟩⟩
  · obtain ⟨old, hold, -⟩ := hb.old hlast
    obtain ⟨insn, rest, rfl⟩ : ∃ insn rest, is = insn :: rest :=
      List.exists_cons_of_ne_nil (by rintro rfl; cases hold)
    have hhead : insn.pc.toNat = 0 := hb.run.head hlt
    rw [hb.pcOf?]
    exact congrArg some (UInt16.toNat_inj.mp hhead)
  · intro i j pc pc' hij hi hj
    rw [hb.pcOf?] at hi hj
    obtain ⟨a, ha, rfl⟩ := Option.map_eq_some_iff.mp hi
    obtain ⟨c, hc, rfl⟩ := Option.map_eq_some_iff.mp hj
    obtain ⟨hi', rfl⟩ := List.getElem?_eq_some_iff.mp ha
    obtain ⟨hj', rfl⟩ := List.getElem?_eq_some_iff.mp hc
    exact List.pairwise_iff_getElem.mp (hb.run.pairwise hlt) i j hi' hj' hij
  · intro i pc hi
    rw [hb.pcOf?] at hi
    obtain ⟨insn, hinsn, rfl⟩ := Option.map_eq_some_iff.mp hi
    rw [hb.run.tiled hlt i insn hinsn, hb.pcOf?, Option.map_map]
    rfl
  · intro n hn
    obtain ⟨i, old, new, -, hnew, hlinked, htable⟩ := hb.owned hn
    exact ⟨i, new.operation, by rw [Body.operation?, hnew]; rfl, hlinked.table.trans htable⟩
  · rw [Body.operation?, Body.size, hlast]
    rfl

/-- A switch over 0 and 1 behind two bytes of padding, and a jump backwards. -/
def switchCode : List UInt8 :=
  [0x1A, 0xAA, 0, 0, 0, 0, 0, 23, 0, 0, 0, 0, 0, 0, 0, 1, 0, 0, 0, 25, 0, 0, 0, 24, 0x03, 0xAC,
    0xA7, 0xFF, 0xFE]

/-- The same code, decoded. -/
def switchBody : Body where
  instructions := #[⟨0, .load .int 0⟩, ⟨1, .tableSwitch 0⟩, ⟨24, .pushInt 0⟩,
    ⟨25, .leave (some .int)⟩, ⟨26, .jump .always 2⟩]
  tables := #[⟨2, .range 0 [4, 3]⟩]
  starts := #[some 0, some 1] ++ Array.replicate 22 none ++ #[some 2, some 3, some 4, none, none]

theorem switchBody_decodes :
    switchCode.length ≤ 65535 ∧ decode switchCode = .ok switchBody ∧
      switchBody.Decodes switchCode :=
  have hdecode : decode switchCode = .ok switchBody := by decide +kernel
  ⟨by decide, hdecode, decodes_of_decode (by decide) hdecode⟩

end Jvm.Bytecode
