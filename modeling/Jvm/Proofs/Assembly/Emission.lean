import Mathlib
import Jvm.Assembly.Code
import Jvm.Proofs.Assembly.Pools
import Jvm.Proofs.Bytecode.Reading

/-! # What assembled instructions mean

`Denotes` says when an operation is the one that a statement of assembly code asks for, whatever spelling
was picked for it. `Writes` is what adding pieces does to a draft, and `Spells` relates the pieces to bytes,
once the labels have offsets. -/

namespace Jvm

/-- Whether control never goes on behind an instruction of a form without numbers of its own. -/
def Bytecode.Form.endsBlock : Bytecode.Form → Bool
  | .plain op => op.endsBlock
  | .jump .always | .farJump .always => true
  | _ => false

namespace Assembly

open ClassFile Bytecode

/-! ### Statements -/

namespace Statement

/-- Whether a statement is an instruction. -/
def isInstruction : Statement → Bool
  | .label _ | .handler .. | .line _ | .maxStack _ | .maxLocals _ => false
  | _ => true

/-- The labels that a statement goes to. -/
def targets : Statement → List Label
  | .jump _ l | .farJump _ l => [l]
  | .tableSwitch _ default labels => default :: labels
  | .lookupSwitch default pairs => default :: pairs.map (·.2)
  | _ => []

/-- Whether control never goes on behind a statement. -/
def endsBlock : Statement → Bool
  | .op opcode | .jump opcode _ | .farJump opcode _ =>
    (InstructionSet.form? opcode).any Form.endsBlock
  | .tableSwitch .. | .lookupSwitch .. => true
  | _ => false

/-- Whether a statement is one instruction whose operands fit it. Bytes written as they are may be anything. -/
def Valid : Statement → Prop
  | .op opcode => ∃ op, InstructionSet.form? opcode = some (.plain op)
  | .invokeInterface _ _ descriptor =>
    ∃ type, MethodType.parse descriptor = .ok type ∧ type.argSlots ≤ 254
  | .newArray code => ∃ element, Primitive.ofCode? code = some element
  | .newMultiArray _ dimensions => dimensions ≠ 0
  | .jump opcode _ => ∃ jump, InstructionSet.form? opcode = some (.jump jump)
  | .farJump opcode _ => ∃ jump, InstructionSet.form? opcode = some (.farJump jump)
  | .tableSwitch low _ labels => labels ≠ [] ∧ low.toInt + labels.length ≤ 2 ^ 31
  | .lookupSwitch _ pairs => (pairs.map (·.1)).Nodup
  | .raw _ | .pooled .. => False
  | _ => True

end Statement

/-- Whether an operation, with its table if it is a switch, is the one a statement asks for, where the
constants are those of a pool and labels stand for positions. -/
inductive Denotes (pool : Pool) (at? : Label → Option Nat) :
    Statement → Operation → Option SwitchTable → Prop
  | op {opcode : UInt8} {op : Operation} :
    InstructionSet.form? opcode = some (.plain op) → Denotes pool at? (.op opcode) op none
  | pushInt {v : Int32} : Denotes pool at? (.pushInt v) (.pushInt v) none
  | pushIntConstant {v : Int32} {i : UInt16} :
    pool.Names i (.integer v) → Denotes pool at? (.pushInt v) (.ldc i) none
  | pushLong {v : Int64} : Denotes pool at? (.pushLong v) (.pushLong v) none
  | pushLongConstant {v : Int64} {i : UInt16} :
    pool.Names i (.long v) → Denotes pool at? (.pushLong v) (.ldc2 i) none
  | pushFloat {bits : UInt32} : Denotes pool at? (.pushFloat bits) (.pushFloat bits) none
  | pushFloatConstant {bits : UInt32} {i : UInt16} :
    pool.Names i (.float bits) → Denotes pool at? (.pushFloat bits) (.ldc i) none
  | pushDouble {bits : UInt64} : Denotes pool at? (.pushDouble bits) (.pushDouble bits) none
  | pushDoubleConstant {bits : UInt64} {i : UInt16} :
    pool.Names i (.double bits) → Denotes pool at? (.pushDouble bits) (.ldc2 i) none
  | pushString {s : String} {i : UInt16} :
    pool.Names i (.string s) → Denotes pool at? (.pushString s) (.ldc i) none
  | pushClass {name : String} {i : UInt16} :
    pool.Names i (.classRef name) → Denotes pool at? (.pushClass name) (.ldc i) none
  | load {kind : LocalKind} {index : UInt16} :
    Denotes pool at? (.load kind index) (.load kind index) none
  | store {kind : LocalKind} {index : UInt16} :
    Denotes pool at? (.store kind index) (.store kind index) none
  | iinc {index : UInt16} {delta : Int16} :
    Denotes pool at? (.iinc index delta) (.iinc index delta) none
  | member {use : PoolUse} {owner name descriptor : String} {i : UInt16} :
    pool.Names i (useEntry use owner name descriptor) →
    Denotes pool at? (.member use owner name descriptor) (.pooled use i) none
  | invokeInterface {owner name descriptor : String} {type : MethodType} {i : UInt16} :
    MethodType.parse descriptor = .ok type →
    pool.Names i (.interfaceMethodRef owner name descriptor) →
    Denotes pool at? (.invokeInterface owner name descriptor)
      (.invokeInterface i (type.argSlots + 1).toUInt8) none
  | onClass {use : PoolUse} {name : String} {i : UInt16} :
    pool.Names i (.classRef name) → Denotes pool at? (.onClass use name) (.pooled use i) none
  | newArray {code : UInt8} {element : Primitive} :
    Primitive.ofCode? code = some element → Denotes pool at? (.newArray code) (.newArray element) none
  | newMultiArray {name : String} {dimensions : UInt8} {i : UInt16} :
    pool.Names i (.classRef name) →
    Denotes pool at? (.newMultiArray name dimensions) (.newMultiArray i dimensions) none
  | jump {opcode : UInt8} {jump : Jump} {l : Label} {t : Nat} :
    InstructionSet.form? opcode = some (.jump jump) → at? l = some t →
    Denotes pool at? (.jump opcode l) (.jump jump t) none
  | farJump {opcode : UInt8} {jump : Jump} {l : Label} {t : Nat} :
    InstructionSet.form? opcode = some (.farJump jump) → at? l = some t →
    Denotes pool at? (.farJump opcode l) (.jump jump t) none
  | tableSwitch {low : Int32} {l : Label} {labels : List Label} {k t : Nat} {ts : List Nat} :
    at? l = some t → List.Forall₂ (fun l t => at? l = some t) labels ts →
    Denotes pool at? (.tableSwitch low l labels) (.tableSwitch k) (some ⟨t, .range low ts⟩)
  | lookupSwitch {l : Label} {pairs sorted : List (Int32 × Label)} {k t : Nat}
      {ts : List (Int32 × Nat)} :
    at? l = some t → sorted.Perm pairs → ts.Pairwise (fun a b => a.1 < b.1) →
    List.Forall₂ (fun p q => q.1 = p.1 ∧ at? p.2 = some q.2) sorted ts →
    Denotes pool at? (.lookupSwitch l pairs) (.lookupSwitch k) (some ⟨t, .pairs ts.toArray⟩)

theorem Denotes.endsBlock {pool : Pool} {at? : Label → Option Nat} {st : Statement} {op : Operation}
    {table : Option SwitchTable} (h : Denotes pool at? st op table) :
    op.endsBlock = st.endsBlock := by
  cases h with
  | op hform =>
    rw [Statement.endsBlock, hform]
    rfl
  | @jump _ jump _ _ hform =>
    rw [Statement.endsBlock, hform]
    cases jump <;> rfl
  | @farJump _ jump _ _ hform =>
    rw [Statement.endsBlock, hform]
    cases jump <;> rfl
  | _ => rfl

/-! ### Pieces -/

/-- Whether bytes spell pieces, where the labels have the offsets that a draft gives them. -/
inductive Spells (f : Draft) : List Piece → List UInt8 → Prop
  | nil : Spells f [] []
  | byte {b : UInt8} {ps : List Piece} {bs : List UInt8} :
    Spells f ps bs → Spells f (.byte b :: ps) (b :: bs)
  | near {base t : Nat} {l : Label} {ps : List Piece} {bs : List UInt8} :
    f.labels.lookup l = some t → -32768 ≤ (t : Int) - base → (t : Int) - base ≤ 32767 →
    Spells f ps bs →
    Spells f (.near base l :: ps) (bytes2 (Int16.ofInt ((t : Int) - base)).toUInt16 ++ bs)
  | far {base t : Nat} {l : Label} {ps : List Piece} {bs : List UInt8} :
    f.labels.lookup l = some t → Spells f ps bs →
    Spells f (.far base l :: ps) (farBytes base t ++ bs)

/-- The number of bytes that pieces take. -/
def piecesSize (ps : List Piece) : Nat := (ps.map Piece.size).sum

theorem piecesSize_pos {ps : List Piece} (h : ps ≠ []) : 0 < piecesSize ps := by
  obtain ⟨p, rest, rfl⟩ := List.exists_cons_of_ne_nil h
  cases p <;> simp [piecesSize, Piece.size]

theorem piecesSize_append (ps qs : List Piece) :
    piecesSize (ps ++ qs) = piecesSize ps + piecesSize qs := by
  simp [piecesSize]

section

variable {f : Draft} {ps qs : List Piece} {bs : List UInt8}

theorem resolve_eq_ok {l : Label} {t : Nat} :
    f.resolve l = .ok t ↔ f.labels.lookup l = some t := by
  unfold Draft.resolve
  rcases f.labels.lookup l with _ | t' <;> simp

theorem spells_of_mapM : ∀ {ps : List Piece} {parts : List (List UInt8)},
    ps.mapM f.pieceBytes = .ok parts → Spells f ps parts.flatten
  | [], parts, h => by
    cases h
    exact .nil
  | p :: ps, parts, h => by
    rw [List.mapM_cons] at h
    rcases hp : f.pieceBytes p with e | b
    · rw [hp] at h
      cases h
    rcases hps : ps.mapM f.pieceBytes with e | rest
    · rw [hp, hps] at h
      cases h
    rw [hp, hps] at h
    cases h
    rw [List.flatten_cons]
    have hrest := spells_of_mapM hps
    cases p with
    | byte c =>
      cases hp
      exact .byte hrest
    | near base l =>
      rcases ht : f.resolve l with e | t
      · simp [Draft.pieceBytes, ht, bind, Except.bind] at hp
      · simp only [Draft.pieceBytes, ht, bind, Except.bind] at hp
        split at hp
        · cases hp
        · next hdistance =>
          simp only [Bool.or_eq_true, decide_eq_true_eq, not_or] at hdistance
          cases hp
          exact .near (resolve_eq_ok.mp ht) (by omega) (by omega) hrest
    | far base l =>
      rcases ht : f.resolve l with e | t
      · simp [Draft.pieceBytes, ht, bind, Except.bind] at hp
      · simp only [Draft.pieceBytes, ht, bind, Except.bind] at hp
        cases hp
        exact .far (resolve_eq_ok.mp ht) hrest

theorem Spells.length (h : Spells f ps bs) : bs.length = piecesSize ps := by
  induction h with
  | nil => rfl
  | byte _ ih => simp [piecesSize, Piece.size, ih, Nat.add_comm]
  | near _ _ _ _ ih => simp [piecesSize, Piece.size, ih, bytes2, Nat.add_comm 2]
  | far _ _ ih => simp [piecesSize, Piece.size, ih, length_farBytes]

/-- Bytes that spell pieces and further ones. -/
theorem Spells.append_inv (h : Spells f (ps ++ qs) bs) :
    ∃ b c, bs = b ++ c ∧ Spells f ps b ∧ Spells f qs c := by
  induction ps generalizing bs with
  | nil => exact ⟨[], bs, rfl, .nil, h⟩
  | cons p ps ih =>
    cases h with
    | byte hrest =>
      obtain ⟨b, c, rfl, hb, hc⟩ := ih hrest
      exact ⟨_ :: b, c, rfl, .byte hb, hc⟩
    | near ht hlow hhigh hrest =>
      obtain ⟨b, c, rfl, hb, hc⟩ := ih hrest
      exact ⟨_ ++ b, c, (List.append_assoc _ _ _).symm, .near ht hlow hhigh hb, hc⟩
    | far ht hrest =>
      obtain ⟨b, c, rfl, hb, hc⟩ := ih hrest
      exact ⟨_ ++ b, c, (List.append_assoc _ _ _).symm, .far ht hb, hc⟩

theorem Spells.bytes_inv {xs : List UInt8} (h : Spells f (xs.map .byte) bs) : bs = xs := by
  induction xs generalizing bs with
  | nil =>
    cases h
    rfl
  | cons x xs ih =>
    cases h with
    | byte hrest => rw [ih hrest]

theorem Spells.far_inv {base : Nat} {l : Label} (h : Spells f [.far base l] bs) :
    ∃ t, f.labels.lookup l = some t ∧ bs = farBytes base t := by
  cases h with
  | far ht hrest =>
    cases hrest
    exact ⟨_, ht, List.append_nil _⟩

theorem Spells.farList_inv {base : Nat} {labels : List Label}
    (h : Spells f (labels.map (.far base)) bs) :
    ∃ ts, List.Forall₂ (fun l t => f.labels.lookup l = some t) labels ts ∧
      bs = ts.flatMap (farBytes base) := by
  induction labels generalizing bs with
  | nil =>
    cases h
    exact ⟨[], .nil, rfl⟩
  | cons l labels ih =>
    cases h with
    | far ht hrest =>
      obtain ⟨ts, hts, rfl⟩ := ih hrest
      exact ⟨_ :: ts, .cons ht hts, rfl⟩

theorem Spells.pairList_inv {base : Nat} {pairs : List (Int32 × Label)}
    (h : Spells f (pairs.flatMap fun p => (bytes4 p.1.toUInt32).map .byte ++ [.far base p.2]) bs) :
    ∃ ts : List (Int32 × Nat),
      List.Forall₂ (fun p q => q.1 = p.1 ∧ f.labels.lookup p.2 = some q.2) pairs ts ∧
      bs = ts.flatMap fun q => bytes4 q.1.toUInt32 ++ farBytes base q.2 := by
  induction pairs generalizing bs with
  | nil =>
    cases h
    exact ⟨[], .nil, rfl⟩
  | cons p pairs ih =>
    rw [List.flatMap_cons] at h
    obtain ⟨b, c, rfl, hb, hc⟩ := h.append_inv
    obtain ⟨key, far, rfl, hkey, hfar⟩ := hb.append_inv
    obtain ⟨t, ht, rfl⟩ := hfar.far_inv
    obtain ⟨ts, hts, rfl⟩ := ih hc
    rw [hkey.bytes_inv]
    exact ⟨(p.1, t) :: ts, .cons ⟨rfl, ht⟩ hts, rfl⟩

end

/-! ### Drafts -/

/-- What adding pieces to a draft does. -/
structure Writes (d d' : Draft) (ps : List Piece) : Prop where
  pieces : d'.pieces = ps.reverse ++ d.pieces
  size : d'.size = d.size + piecesSize ps
  labels : d'.labels = d.labels
  grows : d.pool.Extends d'.pool
  sound : d.pool.Sound → d'.pool.Sound

section

variable {d d' d'' : Draft} {ps qs : List Piece}

theorem Writes.trans (h : Writes d d' ps) (h' : Writes d' d'' qs) : Writes d d'' (ps ++ qs) where
  pieces := by rw [h'.pieces, h.pieces, List.reverse_append, List.append_assoc]
  size := by
    rw [h'.size, h.size, piecesSize_append, Nat.add_assoc]
  labels := h'.labels.trans h.labels
  grows := h.grows.trans h'.grows
  sound := h'.sound ∘ h.sound

theorem writes_piece (d : Draft) (p : Piece) : Writes d (d.piece p) [p] :=
  ⟨rfl, by simp [Draft.piece, piecesSize], rfl, .refl _, id⟩

theorem writes_bytes (d : Draft) (bs : List UInt8) : Writes d (d.bytes bs) (bs.map .byte) := by
  induction bs generalizing d with
  | nil => exact ⟨rfl, rfl, rfl, .refl _, id⟩
  | cons b bs ih => exact (writes_piece d (.byte b)).trans (ih (d.piece (.byte b)))

theorem writes_useLocals (d : Draft) (n : UInt16) : Writes d (d.useLocals n) [] :=
  ⟨rfl, rfl, rfl, .refl _, id⟩

theorem writes_entry (d : Draft) (e : Entry) : Writes d (d.entry e).2 [] :=
  ⟨rfl, rfl, rfl, (Pool.gives_entry e).grows d.pool, (Pool.gives_entry e).sound d.pool⟩

theorem names_entry (hd : d.pool.Sound) (e : Entry) : (d.entry e).2.pool.Names (d.entry e).1 e :=
  (Pool.gives_entry e).there d.pool hd

theorem writes_pooled (d : Draft) (opcode : UInt8) (e : Entry) :
    Writes d (d.pooled opcode e) ((opcode :: bytes2 (d.entry e).1).map .byte) :=
  (writes_entry d e).trans (writes_bytes _ _)

theorem names_pooled (hd : d.pool.Sound) (opcode : UInt8) (e : Entry) :
    (d.pooled opcode e).pool.Names (d.entry e).1 e :=
  (writes_bytes _ _).grows.names (names_entry hd e)

theorem writes_pad (d : Draft) :
    Writes d d.pad ((List.replicate ((4 - d.size % 4) % 4) 0).map .byte) := writes_bytes _ _

theorem writes_farList (d : Draft) (base : Nat) (labels : List Label) :
    Writes d (labels.foldl (fun d l => d.piece (.far base l)) d) (labels.map (.far base)) := by
  induction labels generalizing d with
  | nil => exact ⟨rfl, rfl, rfl, .refl _, id⟩
  | cons l labels ih => exact (writes_piece d (.far base l)).trans (ih _)

theorem writes_pairList (d : Draft) (base : Nat) (pairs : List (Int32 × Label)) :
    Writes d (pairs.foldl (fun d (k, l) => (d.bytes (bytes4 k.toUInt32)).piece (.far base l)) d)
      (pairs.flatMap fun p => (bytes4 p.1.toUInt32).map .byte ++ [.far base p.2]) := by
  induction pairs generalizing d with
  | nil => exact ⟨rfl, rfl, rfl, .refl _, id⟩
  | cons p pairs ih =>
    exact ((writes_bytes d (bytes4 p.1.toUInt32)).trans (writes_piece _ (.far base p.2))).trans (ih _)

end

end Assembly

end Jvm
