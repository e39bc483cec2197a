import Mathlib
import Jvm.Assembly.Class
import Jvm.Proofs.Assembly.Emission
import Jvm.Proofs.Assembly.Growth
import Jvm.Proofs.ClassFile.References

/-! # What drafts of code come to

Each statement does one thing to a draft (`Adding`). After all of them the draft has asked for their entries, and
labels, handlers and line marks are those of the statements, where they stand (`Drafts`). Finished, it is the
body of a code attribute (`Finished`). -/

namespace Jvm.Assembly

open ClassFile Reader

/-! ### Statements -/

namespace Statement

/-- The entries that a statement may ask for. -/
def entries : Statement → List Entry
  | .pushInt v => [.integer v]
  | .pushLong v => [.long v]
  | .pushFloat bits => [.float bits]
  | .pushDouble bits => [.double bits]
  | .pushString s => [.string s]
  | .member use owner name descriptor => [useEntry use owner name descriptor]
  | .invokeInterface owner name descriptor => [.interfaceMethodRef owner name descriptor]
  | .pushClass name | .onClass _ name | .newMultiArray name _ | .handler _ _ _ (some name) => [.classRef name]
  | .pooled _ entry _ => [entry]
  | _ => []

/-- The handler that a statement asks for: its three labels and the class that it catches. -/
def handler? : Statement → Option (Label × Label × Label × Option String)
  | .handler start stop target catchType => some (start, stop, target, catchType)
  | _ => none

/-- The line that a statement marks. -/
def line? : Statement → Option UInt16
  | .line n => some n
  | _ => none

end Statement

/-! ### Adding statements -/

/-- What adding code to a draft does beside the code. -/
structure Adds (E : Entry → Prop) (d d' : Draft) : Prop where
  asks : Pool.Asks E d.pool d'.pool
  size : d.size = piecesSize d.pieces → d'.size = piecesSize d'.pieces
  grows : d.size ≤ d'.size
  labels : d'.labels = d.labels
  handlers : d'.handlers = d.handlers
  lines : d'.lines = d.lines

section

variable {E : Entry → Prop} {d d' d'' : Draft}

theorem Adds.refl (d : Draft) : Adds E d d := ⟨.refl, id, le_rfl, rfl, rfl, rfl⟩

theorem Adds.trans (h : Adds E d d') (h' : Adds E d' d'') : Adds E d d'' :=
  ⟨h.asks.trans h'.asks, h'.size ∘ h.size, h.grows.trans h'.grows, h'.labels.trans h.labels,
    h'.handlers.trans h.handlers, h'.lines.trans h.lines⟩

theorem adds_piece (d : Draft) (p : Piece) : Adds E d (d.piece p) := by
  refine ⟨.refl, fun h => ?_, Nat.le_add_right _ _, rfl, rfl, rfl⟩
  simp [Draft.piece, piecesSize, h, Nat.add_comm]

theorem adds_foldl {α : Type} {f : Draft → α → Draft} (hf : ∀ d a, Adds E d (f d a)) (d : Draft) (as : List α) :
    Adds E d (as.foldl f d) := by
  induction as generalizing d with
  | nil => exact .refl d
  | cons a as ih => exact (hf d a).trans (ih (f d a))

theorem adds_bytes (d : Draft) (bs : List UInt8) : Adds E d (d.bytes bs) :=
  adds_foldl (fun d b => adds_piece d (.byte b)) d bs

theorem adds_entry (d : Draft) {e : Entry} (he : E e) : Adds E d (d.entry e).2 :=
  ⟨Pool.asks_entry he d.pool, id, le_rfl, rfl, rfl, rfl⟩

theorem adds_pooled (d : Draft) (opcode : UInt8) {e : Entry} (he : E e) : Adds E d (d.pooled opcode e) :=
  (adds_entry d he).trans (adds_bytes _ _)

theorem adds_ite {p : Prop} [Decidable p] (h : Adds E d d') (h' : Adds E d d'') :
    Adds E d (if p then d' else d'') := by
  split
  · exact h
  · exact h'

theorem adds_ldc (d : Draft) {e : Entry} (he : E e) : Adds E d (d.ldc e) := by
  refine (adds_entry d he).trans ?_
  exact adds_ite (adds_bytes _ _) (adds_bytes _ _)

theorem adds_useLocals (d : Draft) (n : UInt16) : Adds E d (d.useLocals n) :=
  ⟨.refl, id, le_rfl, rfl, rfl, rfl⟩

theorem adds_local (d : Draft) (short long : UInt8) (index : UInt16) (slots : Nat) :
    Adds E d (d.local_ short long index slots) := by
  refine (adds_useLocals d (index + slots.toUInt16)).trans ?_
  exact adds_ite (adds_bytes _ _) (adds_ite (adds_bytes _ _) (adds_bytes _ _))

end

/-! ### Handlers -/

/-- Whether the index in a handler is that of the class it is to catch, if there is one. -/
def Catches (p : Pool) : Option String → UInt16 → Prop
  | none, i => i = 0
  | some name, i => p.Names i (.classRef name)

/-- Whether a handler is one that was asked for. -/
structure Handles (p : Pool) (asked : Label × Label × Label × Option String) (h : LabelledHandler) : Prop where
  start : h.start = asked.1
  stop : h.stop = asked.2.1
  handler : h.handler = asked.2.2.1
  catchType : Catches p asked.2.2.2 h.catchType

theorem Catches.grows {p q : Pool} (hext : p.Extends q) {catchType : Option String} {i : UInt16}
    (h : Catches p catchType i) : Catches q catchType i := by
  cases catchType with
  | none => exact h
  | some name => exact hext.names (e := .classRef name) h

theorem Handles.grows {p q : Pool} (hext : p.Extends q) {asked : Label × Label × Label × Option String}
    {h : LabelledHandler} (hh : Handles p asked h) : Handles q asked h :=
  ⟨hh.start, hh.stop, hh.handler, hh.catchType.grows hext⟩

/-! ### Statements one by one -/

/-- What adding a statement does to a draft: it puts a label, marks a line, adds a handler, or adds code. -/
inductive Adding : Statement → Draft → Draft → Prop where
  | label (d : Draft) (l : Label) : Adding (.label l) d { d with labels := (l, d.size) :: d.labels }
  | line (d : Draft) (n : UInt16) : Adding (.line n) d { d with lines := ⟨d.size.toUInt16, n⟩ :: d.lines }
  | handler (d : Draft) (start stop handler : Label) (catchType : Option String) (pool : Pool) (i : UInt16)
      (hasks : d.pool.Asks (· ∈ (Statement.handler start stop handler catchType).entries) pool)
      (hcatches : d.pool.Sound → Catches pool catchType i) :
      Adding (.handler start stop handler catchType) d
        { d with pool, handlers := ⟨start, stop, handler, i⟩ :: d.handlers }
  | code {st : Statement} {d d' : Draft} (hhandler : st.handler? = none) (hline : st.line? = none)
      (hadds : Adds (· ∈ st.entries) d d') : Adding st d d'

theorem adding_of_add {st : Statement} {d d' : Draft} (hadd : d.add st = .ok d') : Adding st d d' := by
  have hmem (e : Entry) : e ∈ [e] := List.mem_singleton_self e
  cases st with
  | raw | op | newArray =>
    cases hadd
    exact .code rfl rfl (adds_bytes _ _)
  | pushInt v =>
    cases hadd
    exact .code rfl rfl <| adds_ite (adds_bytes _ _) <| adds_ite (adds_bytes _ _) <| adds_ite (adds_bytes _ _) <|
      adds_ldc d (hmem _)
  | pushLong v =>
    cases hadd
    exact .code rfl rfl <| adds_ite (adds_bytes _ _) <| adds_ite (adds_bytes _ _) <| adds_pooled d _ (hmem _)
  | pushFloat bits =>
    cases hadd
    exact .code rfl rfl <| adds_ite (adds_bytes _ _) <| adds_ite (adds_bytes _ _) <| adds_ite (adds_bytes _ _) <|
      adds_ldc d (hmem _)
  | pushDouble bits =>
    cases hadd
    exact .code rfl rfl <| adds_ite (adds_bytes _ _) <| adds_ite (adds_bytes _ _) <| adds_pooled d _ (hmem _)
  | pushString | pushClass =>
    cases hadd
    exact .code rfl rfl (adds_ldc d (hmem _))
  | load | store =>
    cases hadd
    exact .code rfl rfl (adds_local d _ _ _ _)
  | iinc index delta =>
    cases hadd
    exact .code rfl rfl ((adds_useLocals d (index + 1)).trans (adds_ite (adds_bytes _ _) (adds_bytes _ _)))
  | member | onClass =>
    cases hadd
    exact .code rfl rfl (adds_pooled d _ (hmem _))
  | newMultiArray | pooled =>
    cases hadd
    exact .code rfl rfl ((adds_pooled d _ (hmem _)).trans (adds_bytes _ _))
  | invokeInterface owner name descriptor =>
    obtain ⟨type, -, h⟩ := except_bind_eq_ok.mp hadd
    cases h
    exact .code rfl rfl ((adds_pooled d _ (hmem _)).trans (adds_bytes _ _))
  | jump | farJump =>
    cases hadd
    exact .code rfl rfl ((adds_bytes d _).trans (adds_piece _ _))
  | tableSwitch low default targets =>
    cases hadd
    refine .code rfl rfl (Adds.trans ?_ (adds_foldl (fun d _ => adds_piece d _) _ _))
    exact (((adds_bytes d _).trans (adds_bytes _ _)).trans (adds_piece _ _)).trans (adds_bytes _ _)
  | lookupSwitch default pairs =>
    cases hadd
    refine .code rfl rfl (Adds.trans ?_ (adds_foldl (fun d _ => (adds_bytes d _).trans (adds_piece _ _)) _ _))
    exact (((adds_bytes d _).trans (adds_bytes _ _)).trans (adds_piece _ _)).trans (adds_bytes _ _)
  | label l =>
    change d.putLabel l = _ at hadd
    unfold Draft.putLabel at hadd
    split at hadd
    · cases hadd
    · cases hadd
      exact .label d l
  | maxStack =>
    cases hadd
    exact .code rfl rfl ⟨.refl, id, le_rfl, rfl, rfl, rfl⟩
  | maxLocals =>
    cases hadd
    exact .code rfl rfl (adds_useLocals d _)
  | handler start stop handler catchType =>
    cases catchType with
    | none =>
      cases hadd
      exact .handler d start stop handler none d.pool 0 .refl fun _ => rfl
    | some name =>
      cases hadd
      exact .handler d start stop handler (some name) _ _ (Pool.asks_entry (hmem _) d.pool)
        fun hsound => names_entry hsound (.classRef name)
  | line n =>
    cases hadd
    exact .line d n

theorem Adding.asks {st : Statement} {d d' : Draft} (h : Adding st d d') :
    d.pool.Asks (· ∈ st.entries) d'.pool := by
  cases h with
  | label | line => exact .refl
  | handler _ _ _ _ _ _ _ hasks => exact hasks
  | code _ _ hadds => exact hadds.asks

theorem Adding.grows {st : Statement} {d d' : Draft} (h : Adding st d d') : d.size ≤ d'.size := by
  cases h with
  | label | line | handler => exact le_rfl
  | code _ _ hadds => exact hadds.grows

/-! ### Statements one after the other -/

/-- Whether a statement stands at an offset: where the code of those in front of it ends. `Drafted` says which
draft these come to. -/
def Stands (Drafted : List Statement → Draft → Prop) (statements before : List Statement) (st : Statement)
    (n : Nat) : Prop :=
  (∃ after, statements = before ++ st :: after) ∧ ∃ d, Drafted before d ∧ d.size = n

section

variable {Drafted : List Statement → Draft → Prop} {statements before : List Statement} {st : Statement} {n : Nat}

theorem Stands.mono {Drafted' : List Statement → Draft → Prop} (h : Stands Drafted statements before st n)
    (hdrafted : ∀ statements d, Drafted statements d → Drafted' statements d) :
    Stands Drafted' statements before st n := by
  obtain ⟨hafter, d, hd, hsize⟩ := h
  exact ⟨hafter, d, hdrafted _ _ hd, hsize⟩

theorem Stands.more (h : Stands Drafted statements before st n) (st' : Statement) :
    Stands Drafted (statements ++ [st']) before st n := by
  obtain ⟨⟨after, rfl⟩, hd⟩ := h
  exact ⟨⟨after ++ [st'], by simp⟩, hd⟩

theorem Stands.last {d : Draft} (hd : Drafted statements d) (st : Statement) :
    Stands Drafted (statements ++ [st]) statements st d.size := ⟨⟨[], rfl⟩, d, hd, rfl⟩

end

theorem filterMap_last_none {α : Type} {g : Statement → Option α} {st : Statement} (h : g st = none)
    (statements : List Statement) : (statements ++ [st]).filterMap g = statements.filterMap g := by
  rw [List.filterMap_append, List.filterMap_cons_none h, List.filterMap_nil, List.append_nil]

/-- What a draft is after some statements, begun with a pool; `Drafted` says the same of those in front. -/
structure Drafts (pool : Pool) (Drafted : List Statement → Draft → Prop) (statements : List Statement) (d : Draft) :
    Prop where
  asks : pool.Asks (fun e => ∃ st ∈ statements, e ∈ st.entries) d.pool
  size : d.size = piecesSize d.pieces
  labels : ∀ l n, (l, n) ∈ d.labels → n ≤ d.size ∧ ∃ before, Stands Drafted statements before (.label l) n
  handlers : pool.Sound → List.Forall₂ (Handles d.pool) (statements.filterMap Statement.handler?) d.handlers.reverse
  lines : d.lines.reverse.map LineRow.line = statements.filterMap Statement.line?
  marks : ∀ i row, d.lines.reverse[i]? = some row → ∃ n ≤ d.size, row.start = n.toUInt16 ∧
    ∃ before, (before.filterMap Statement.line?).length = i ∧ Stands Drafted statements before (.line row.line) n

theorem Drafts.mono {pool : Pool} {Drafted Drafted' : List Statement → Draft → Prop} {statements : List Statement}
    {d : Draft} (h : Drafts pool Drafted statements d)
    (hdrafted : ∀ statements d, Drafted statements d → Drafted' statements d) :
    Drafts pool Drafted' statements d where
  asks := h.asks
  size := h.size
  labels l n hl := by
    obtain ⟨hn, before, hstands⟩ := h.labels l n hl
    exact ⟨hn, before, hstands.mono hdrafted⟩
  handlers := h.handlers
  lines := h.lines
  marks i row hrow := by
    obtain ⟨n, hn, hstart, before, hi, hstands⟩ := h.marks i row hrow
    exact ⟨n, hn, hstart, before, hi, hstands.mono hdrafted⟩

theorem Drafts.add {pool : Pool} {Drafted : List Statement → Draft → Prop} {statements : List Statement}
    {d d' : Draft} {st : Statement} (h : Drafts pool Drafted statements d) (hd : Drafted statements d)
    (hadd : d.add st = .ok d') : Drafts pool Drafted (statements ++ [st]) d' := by
  have hadding := adding_of_add hadd
  have hasks : pool.Asks (fun e => ∃ st' ∈ statements ++ [st], e ∈ st'.entries) d'.pool :=
    (h.asks.mono fun e ⟨st', hst', he⟩ => ⟨st', List.mem_append_left _ hst', he⟩).trans
      (hadding.asks.mono fun e he => ⟨st, List.mem_append_right _ (List.mem_singleton_self st), he⟩)
  have hgrows := hadding.grows
  -- what holds of labels, handlers and lines goes on to hold of those that were there before
  have hlabels (l : Label) (n : Nat) (hl : (l, n) ∈ d.labels) :
      n ≤ d'.size ∧ ∃ before, Stands Drafted (statements ++ [st]) before (.label l) n := by
    obtain ⟨hn, before, hstands⟩ := h.labels l n hl
    exact ⟨hn.trans hgrows, before, hstands.more st⟩
  have hhandlers (hsound : pool.Sound) : List.Forall₂ (Handles d'.pool) (statements.filterMap Statement.handler?)
      d.handlers.reverse := (h.handlers hsound).imp fun _ _ hh => hh.grows hadding.asks.grows
  have hmarks (i : Nat) (row : LineRow) (hrow : d.lines.reverse[i]? = some row) : ∃ n ≤ d'.size,
      row.start = n.toUInt16 ∧ ∃ before, (before.filterMap Statement.line?).length = i ∧
        Stands Drafted (statements ++ [st]) before (.line row.line) n := by
    obtain ⟨n, hn, hstart, before, hi, hstands⟩ := h.marks i row hrow
    exact ⟨n, hn.trans hgrows, hstart, before, hi, hstands.more st⟩
  cases hadding with
  | label d l =>
    refine ⟨hasks, h.size, fun l' n hl => ?_, fun hsound => ?_, ?_, hmarks⟩
    · rcases List.mem_cons.mp hl with hl | hl
      · cases hl
        exact ⟨le_rfl, statements, .last hd _⟩
      · exact hlabels l' n hl
    · rw [filterMap_last_none rfl]
      exact hhandlers hsound
    · rw [filterMap_last_none rfl]
      exact h.lines
  | line d n =>
    refine ⟨hasks, h.size, hlabels, fun hsound => ?_, ?_, fun i row hrow => ?_⟩
    · rw [filterMap_last_none rfl]
      exact hhandlers hsound
    · rw [List.reverse_cons, List.map_append, List.filterMap_append, h.lines]
      rfl
    · rw [List.reverse_cons, List.getElem?_append] at hrow
      split at hrow
      · exact hmarks i row hrow
      · next hi =>
        -- the last mark has as many in front of it as there were lines
        have hlength : (statements.filterMap Statement.line?).length = d.lines.reverse.length := by
          rw [← h.lines, List.length_map]
        rw [List.getElem?_singleton] at hrow
        split at hrow
        · cases hrow
          exact ⟨d.size, le_rfl, rfl, statements, by omega, .last hd _⟩
        · cases hrow
  | handler d start stop handler catchType p i _ hcatches =>
    refine ⟨hasks, h.size, hlabels, fun hsound => ?_, ?_, hmarks⟩
    · rw [List.filterMap_append, List.reverse_cons]
      exact List.rel_append (hhandlers hsound) (.cons ⟨rfl, rfl, rfl, hcatches (h.asks.sound hsound)⟩ .nil)
    · rw [filterMap_last_none rfl]
      exact h.lines
  | code hhandler hline hadds =>
    refine ⟨hasks, hadds.size h.size, hadds.labels ▸ hlabels, fun hsound => ?_, ?_, hadds.lines ▸ hmarks⟩
    · rw [filterMap_last_none hhandler, hadds.handlers]
      exact hhandlers hsound
    · rw [filterMap_last_none hline, hadds.lines]
      exact h.lines

/-- A draft that statements are added to one after the other. -/
theorem drafts_of_foldlM {pool : Pool} {argSlots : UInt16} {statements : List Statement} {d : Draft}
    (h : statements.foldlM Draft.add (.empty pool argSlots) = .ok d) :
    Drafts pool (fun statements d => statements.foldlM Draft.add (.empty pool argSlots) = .ok d) statements d := by
  -- from the end, since what stands in front of a statement does not depend on what comes behind it
  induction statements using List.reverseRecOn generalizing d with
  | nil =>
    cases h
    exact ⟨.refl, rfl, fun _ _ hx => (nomatch hx), fun _ => .nil, rfl, fun _ _ hrow => (nomatch hrow)⟩
  | append_singleton statements st ih =>
    simp only [List.foldlM_append, List.foldlM_cons, List.foldlM_nil, except_bind_eq_ok] at h
    obtain ⟨before, hbefore, _, hadd, h⟩ := h
    cases h
    exact (ih hbefore).add hbefore hadd

/-! ### Finished drafts -/

/-- The code attribute of some code. -/
def codeBody (k : CodeAttribute) : Attribute :=
  .code k.maxStack k.maxLocals k.code k.handlers k.attributes

/-- Whether a row is that of a handler, where the labels of a draft are put. -/
def RowOf (d : Draft) (h : LabelledHandler) (row : HandlerRow) : Prop :=
  ∃ start stop handler, d.labels.lookup h.start = some start ∧ d.labels.lookup h.stop = some stop ∧
    d.labels.lookup h.handler = some handler ∧
    row = ⟨start.toUInt16, stop.toUInt16, handler.toUInt16, h.catchType⟩

/-- Whether a code attribute is what a draft comes to, with the constants of a pool. -/
structure Finished (d : Draft) (pool : Pool) (k : CodeAttribute) : Prop where
  maxStack : k.maxStack = d.maxStack
  maxLocals : k.maxLocals = d.maxLocals
  code : Spells d d.pieces.reverse k.code
  handlers : List.Forall₂ (RowOf d) d.handlers.reverse k.handlers
  attributes : d.lines = [] ∧ k.attributes = [] ∨ ∃ name, pool.Holds name (.utf8 "LineNumberTable") ∧
    k.attributes = [.mk name (.lineNumbers d.lines.reverse)]

theorem row_of_handlerBytes {d : Draft} {h : LabelledHandler} {bs : List UInt8} (hbs : d.handlerBytes h = .ok bs) :
    ∃ row, RowOf d h row ∧ bs = row.bytes := by
  simp only [Draft.handlerBytes, except_bind_eq_ok, resolve_eq_ok] at hbs
  obtain ⟨start, hstart, stop, hstop, handler, hhandler, hbs⟩ := hbs
  cases hbs
  exact ⟨_, ⟨start, stop, handler, hstart, hstop, hhandler, rfl⟩, rfl⟩

theorem rows_of_mapM {d : Draft} {hs : List LabelledHandler} {parts : List (List UInt8)}
    (h : hs.mapM d.handlerBytes = .ok parts) :
    ∃ rows, List.Forall₂ (RowOf d) hs rows ∧ parts = rows.map HandlerRow.bytes := by
  induction hs generalizing parts with
  | nil =>
    cases h
    exact ⟨[], .nil, rfl⟩
  | cons handler hs ih =>
    simp only [List.mapM_cons, except_bind_eq_ok] at h
    obtain ⟨bs, hbs, parts', hparts, h⟩ := h
    cases h
    obtain ⟨row, hrow, rfl⟩ := row_of_handlerBytes hbs
    obtain ⟨rows, hrows, rfl⟩ := ih hparts
    exact ⟨row :: rows, .cons hrow hrows, rfl⟩

theorem finished_of_finish {d : Draft} {bytes : List UInt8} {pool : Pool} (h : d.finish = .ok (bytes, pool)) :
    ∃ k, bytes = (codeBody k).bytes ∧ d.pool.Asks (Eq (.utf8 "LineNumberTable")) pool ∧
      (d.pool.Sound → Finished d pool k) := by
  unfold Draft.finish at h
  obtain ⟨parts, hparts, h⟩ := except_bind_eq_ok.mp h
  obtain ⟨rowBytes, hrowBytes, h⟩ := except_bind_eq_ok.mp h
  obtain ⟨rows, hrows, rfl⟩ := rows_of_mapM hrowBytes
  have hcode := spells_of_mapM hparts
  split at h
  · next hempty =>
    cases h
    refine ⟨⟨d.maxStack, d.maxLocals, parts.flatten, rows, []⟩, ?_, .refl, fun _ =>
      ⟨rfl, rfl, hcode, hrows, .inl ⟨by simpa using hempty, rfl⟩⟩⟩
    simp [codeBody, Attribute.bytes, NamedAttribute.listBytes, countedBytes, List.flatMap_def]
  · have hgives := Pool.gives_index (.utf8 "LineNumberTable")
    have hasks : d.pool.Asks (Eq (.utf8 "LineNumberTable")) (Pool.utf8 "LineNumberTable" d.pool).2 :=
      Pool.asks_entry (e := .utf8 "LineNumberTable") rfl d.pool
    have hpair : (bytes2 d.maxStack ++ bytes2 d.maxLocals ++ bytes4 parts.flatten.length.toUInt32 ++ parts.flatten
        ++ bytes2 (rows.map HandlerRow.bytes).length.toUInt16 ++ (rows.map HandlerRow.bytes).flatten ++ bytes2 1
        ++ bytes2 (Pool.utf8 "LineNumberTable" d.pool).1 ++ bytes4 (2 + 4 * d.lines.length).toUInt32
        ++ bytes2 d.lines.length.toUInt16 ++ d.lines.reverse.flatMap LineRow.bytes,
        (Pool.utf8 "LineNumberTable" d.pool).2) = (bytes, pool) := Except.ok.inj h
    clear h
    cases hpair
    refine ⟨⟨d.maxStack, d.maxLocals, parts.flatten, rows,
      [.mk (Pool.utf8 "LineNumberTable" d.pool).1 (.lineNumbers d.lines.reverse)]⟩, ?_, hasks,
      fun hsound => ⟨rfl, rfl, hcode, hrows, .inr ⟨_, hgives.there d.pool hsound, rfl⟩⟩⟩
    simp only [codeBody, Attribute.bytes, NamedAttribute.listBytes, NamedAttribute.bytes, length_lineRows,
      List.length_reverse]
    simp [countedBytes, List.flatMap_def]

end Jvm.Assembly
