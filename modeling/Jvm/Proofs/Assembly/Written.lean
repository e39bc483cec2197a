import Mathlib
import Jvm.Proofs.Assembly.Drafts

/-! # What is written of a class

Calls that build a class come to the bytes of a class file in which each part that they add stands where it belongs,
under indices that the finished pool gives for its names (`written_of_build`), in whatever order the calls are made.
The induction is on the calls, with what has been written so far (`DraftWritten`). -/

namespace Jvm.Assembly

open ClassFile Reader

/-! ### Steps of writing -/

namespace Writer

variable {α β : Type} {x : Writer α} {E : Entry → Prop} {What : Pool → α → Prop}

/-- Whether a step asks only for entries of some kind, and comes to something that is so in the pool behind it. -/
def Does (x : Writer α) (E : Entry → Prop) (What : Pool → α → Prop) : Prop :=
  ∀ p a q, x p = .ok (a, q) → p.Asks E q ∧ (p.Sound → What q a)

theorem bind_eq_ok {f : α → Writer β} {p r : Pool} {b : β} :
    (x >>= f) p = .ok (b, r) ↔ ∃ a q, x p = .ok (a, q) ∧ f a q = .ok (b, r) := by
  change (x p >>= fun s => f s.1 s.2) = _ ↔ _
  rw [except_bind_eq_ok, Prod.exists]

theorem lift_eq_ok {y : Except Fault α} {p q : Pool} {a : α} :
    (liftM y : Writer α) p = .ok (a, q) ↔ y = .ok a ∧ p = q := by
  change (y >>= fun a => .ok (a, p)) = _ ↔ _
  rw [except_bind_eq_ok]
  constructor
  · rintro ⟨b, hb, h⟩
    cases h
    exact ⟨hb, rfl⟩
  · rintro ⟨ha, rfl⟩
    exact ⟨a, ha, rfl⟩

theorem does_pure (a : α) : Does (pure a) E fun _ b => b = a := by
  intro p b q h
  cases h
  exact ⟨.refl, fun _ => rfl⟩

theorem Does.bind {f : α → Writer β} {Then : α → Pool → β → Prop} (hx : Does x E What)
    (hf : ∀ a, Does (f a) E (Then a)) (hwhat : ∀ {p q : Pool}, p.Extends q → ∀ {a : α}, What p a → What q a) :
    Does (x >>= f) E fun q b => ∃ a, What q a ∧ Then a q b := by
  intro p b r h
  obtain ⟨a, q, ha, hb⟩ := bind_eq_ok.mp h
  obtain ⟨hasks, hwhat'⟩ := hx p a q ha
  obtain ⟨hasks', hthen⟩ := hf a q b r hb
  exact ⟨hasks.trans hasks', fun hp => ⟨a, hwhat hasks'.grows (hwhat' hp), hthen (hasks.sound hp)⟩⟩

theorem Does.mono {What' : Pool → α → Prop} (hx : Does x E What) (h : ∀ p a, What p a → What' p a) :
    Does x E What' := by
  intro p a q ha
  obtain ⟨hasks, hwhat⟩ := hx p a q ha
  exact ⟨hasks, fun hp => h q a (hwhat hp)⟩

theorem does_entry {e : Entry} (he : E e) : Does (onPool (Pool.entry e)) E fun q i => q.Names i e := by
  intro p i q h
  have hpair : Pool.entry e p = (i, q) := Except.ok.inj h
  have hasks := Pool.asks_entry he p
  have hnames := (Pool.gives_entry e).there p
  rw [hpair] at hasks hnames
  exact ⟨hasks, hnames⟩

/-- Asking for a name and a descriptor. -/
theorem does_nameAndDescriptor {name descriptor : String} (hname : E (.utf8 name))
    (hdescriptor : E (.utf8 descriptor)) (f : UInt16 → UInt16 → β) : Does (do
      let n ← onPool (Pool.utf8 name)
      let d ← onPool (Pool.utf8 descriptor)
      return f n d) E fun q b => ∃ n d, q.Holds n (.utf8 name) ∧ q.Holds d (.utf8 descriptor) ∧ b = f n d := by
  refine ((does_entry hname).bind (fun n => (does_entry hdescriptor).bind (fun d => does_pure (f n d))
    fun hext _ h => hext.names h) fun hext _ h => hext.names h).mono ?_
  rintro q _ ⟨n, hn, d, hd, rfl⟩
  exact ⟨n, d, hn, hd, rfl⟩

end Writer

/-! ### Members -/

/-- The entries that a field may ask for. -/
def FieldText.entries (f : FieldText) : List Entry :=
  f.value.toList.map (·.entry) ++ [.utf8 "ConstantValue", .utf8 f.name, .utf8 f.descriptor]

/-- Whether a written member has the bytes of a member of a class file. -/
def WrittenMember.Spells (w : WrittenMember) (m : MemberInfo) : Prop :=
  bytes2 w.access.bits ++ bytes2 w.name ++ bytes2 w.descriptor ++ attributeBytes w.attributes = m.bytes

theorem attributeBytes_map (as : List NamedAttribute) :
    attributeBytes (as.map fun a => (a.name, a.body.bytes)) = countedBytes NamedAttribute.bytes as := by
  rw [attributeBytes, countedBytes, List.length_map, List.flatMap_map]
  congr 2
  funext a
  cases a
  rfl

theorem spells_mk (access : Access) (name descriptor : UInt16) (as : List NamedAttribute) :
    (WrittenMember.mk access name descriptor (as.map fun a => (a.name, a.body.bytes))).Spells
      ⟨access, name, descriptor, as⟩ := by
  rw [WrittenMember.Spells, attributeBytes_map, MemberInfo.bytes]

theorem memberBytes_eq {ws : List WrittenMember} {ms : List MemberInfo}
    (h : List.Forall₂ WrittenMember.Spells ws ms) : memberBytes ws = countedBytes MemberInfo.bytes ms := by
  rw [memberBytes, countedBytes, h.length_eq]
  congr 1
  induction h with
  | nil => rfl
  | cons hw _ ih => rw [List.flatMap_cons, List.flatMap_cons, ih, hw]

/-- Whether a member is the field that is described, with the constants of a pool. -/
structure FieldWritten (pool : Pool) (f : FieldText) (m : MemberInfo) : Prop where
  access : m.access = f.access
  name : pool.Holds m.name (.utf8 f.name)
  descriptor : pool.Holds m.descriptor (.utf8 f.descriptor)
  attributes : f.value = none ∧ m.attributes = [] ∨ ∃ value name index, f.value = some value ∧
    pool.Names index value.entry ∧ pool.Holds name (.utf8 "ConstantValue") ∧
    m.attributes = [.mk name (.constantValue index)]

theorem FieldWritten.grows {p q : Pool} (hext : p.Extends q) {f : FieldText} {m : MemberInfo}
    (h : FieldWritten p f m) : FieldWritten q f m := by
  refine ⟨h.access, hext.holds h.name, hext.holds h.descriptor, h.attributes.imp_right ?_⟩
  rintro ⟨value, name, index, hvalue, hindex, hname, hattributes⟩
  exact ⟨value, name, index, hvalue, hext.names hindex, hext.holds hname, hattributes⟩

theorem does_field (f : FieldText) : Writer.Does (Writer.field f) (· ∈ f.entries) fun q w =>
    ∃ m, w.Spells m ∧ FieldWritten q f m := by
  obtain ⟨access, name, descriptor, value⟩ := f
  unfold Writer.field
  cases value with
  | none =>
    simp only [pure_bind]
    refine (Writer.does_nameAndDescriptor (by simp [FieldText.entries]) (by simp [FieldText.entries])
      fun n d => WrittenMember.mk access n d []).mono ?_
    rintro q _ ⟨n, d, hn, hd, rfl⟩
    exact ⟨_, spells_mk access n d [], rfl, hn, hd, .inl ⟨rfl, rfl⟩⟩
  | some value =>
    simp only [pure_bind]
    refine ((Writer.does_entry (by simp [FieldText.entries])).bind (fun index =>
      (Writer.does_entry (e := .utf8 "ConstantValue") (by simp [FieldText.entries])).bind (fun c =>
        Writer.does_nameAndDescriptor (by simp [FieldText.entries]) (by simp [FieldText.entries])
          fun n d => WrittenMember.mk access n d [(c, bytes2 index)])
        fun hext _ h => hext.names h) fun hext _ h => hext.names h).mono ?_
    rintro q _ ⟨index, hindex, c, hc, n, d, hn, hd, rfl⟩
    exact ⟨_, spells_mk access n d [.mk c (.constantValue index)], rfl, hn, hd,
      .inr ⟨value, c, index, rfl, hindex, hc, rfl⟩⟩

/-- The entries that a method may ask for. -/
def MethodText.entries (m : MethodText) : List Entry :=
  [.utf8 m.name, .utf8 m.descriptor] ++ m.code.elim [] fun statements =>
    [.utf8 "Code", .utf8 "LineNumberTable"] ++ statements.flatMap Statement.entries

/-- The draft of the code of a method that is written to a pool. -/
def MethodText.draft (m : MethodText) (statements : List Statement) (pool : Pool) : Except Fault Draft := do
  let type ← MethodType.parse m.descriptor
  let argSlots := type.argSlots + (if m.access.isStatic then 0 else 1)
  let (_, pool) := Pool.utf8 m.name pool
  let (_, pool) := Pool.utf8 m.descriptor pool
  let (_, pool) := Pool.utf8 "Code" pool
  statements.foldlM Draft.add (.empty pool argSlots.toUInt16)

/-- Whether some code is that of the statements that a draft was made of, with the constants of a pool;
`Drafted` says which draft statements come to. -/
structure CodeWritten (pool : Pool) (Drafted : List Statement → Draft → Prop) (statements : List Statement)
    (d : Draft) (k : CodeAttribute) : Prop where
  drafted : Drafted statements d
  drafts : ∃ start, Drafts start Drafted statements d
  finished : Finished d pool k
  handlers : List.Forall₂ (Handles pool) (statements.filterMap Statement.handler?) d.handlers.reverse

/-- Whether a member is the method that is described, with the constants of a pool. -/
structure MethodWritten (pool : Pool) (Drafted : List Statement → Draft → Prop) (m : MethodText)
    (i : MemberInfo) : Prop where
  access : i.access = m.access
  name : pool.Holds i.name (.utf8 m.name)
  descriptor : pool.Holds i.descriptor (.utf8 m.descriptor)
  attributes : m.code = none ∧ i.attributes = [] ∨ ∃ statements name d k, m.code = some statements ∧
    CodeWritten pool Drafted statements d k ∧ pool.Holds name (.utf8 "Code") ∧
    i.attributes = [.mk name (codeBody k)]

theorem method_written {m : MethodText} {p q : Pool} {w : WrittenMember} (h : Writer.method m p = .ok (w, q)) :
    p.Asks (· ∈ m.entries) q ∧ (p.Sound → ∃ i, w.Spells i ∧
      MethodWritten q (fun statements d => m.draft statements p = .ok d) m i) := by
  obtain ⟨access, name, descriptor, code⟩ := m
  unfold Writer.method at h
  cases code with
  | none =>
    obtain ⟨hasks, hwritten⟩ := Writer.does_nameAndDescriptor (E := (· ∈ [.utf8 name, .utf8 descriptor])) (by simp)
      (by simp) (fun n d => WrittenMember.mk access n d []) p w q h
    refine ⟨hasks, fun hp => ?_⟩
    obtain ⟨n, d, hn, hd, rfl⟩ := hwritten hp
    exact ⟨_, spells_mk access n d [], rfl, hn, hd, .inl ⟨rfl, rfl⟩⟩
  | some statements =>
    dsimp only at h
    simp only [Writer.bind_eq_ok, Writer.lift_eq_ok] at h
    obtain ⟨type, _, ⟨htype, rfl⟩, n, p₁, hn, d, p₂, hd, c, p₃, hc, _, _, hget, ⟨body, r⟩, _, ⟨hbody, rfl⟩, _, _,
      hset, hpure⟩ := h
    cases hget
    cases hset
    cases hpure
    unfold assemble at hbody
    obtain ⟨draft, hdraft, hfinish⟩ := except_bind_eq_ok.mp hbody
    have hdrafted (statements' : List Statement) (d : Draft) (h : statements'.foldlM Draft.add
        (.empty p₃ (type.argSlots + if access.isStatic then 0 else 1).toUInt16) = .ok d) :
        MethodText.draft ⟨access, name, descriptor, some statements⟩ statements' p = .ok d := by
      obtain rfl : (Pool.utf8 name p).2 = p₁ := congrArg Prod.snd (Except.ok.inj hn)
      obtain rfl : (Pool.utf8 descriptor (Pool.utf8 name p).2).2 = p₂ := congrArg Prod.snd (Except.ok.inj hd)
      obtain rfl : (Pool.utf8 "Code" (Pool.utf8 descriptor (Pool.utf8 name p).2).2).2 = p₃ :=
        congrArg Prod.snd (Except.ok.inj hc)
      exact except_bind_eq_ok.mpr ⟨type, htype, h⟩
    have hdrafts := (drafts_of_foldlM hdraft).mono hdrafted
    obtain ⟨k, rfl, hmore, hfinished⟩ := finished_of_finish hfinish
    let E : Entry → Prop := (· ∈ MethodText.entries ⟨access, name, descriptor, some statements⟩)
    have hE (e : Entry) (he : e ∈ [Entry.utf8 name, .utf8 descriptor] ++ [.utf8 "Code", .utf8 "LineNumberTable"]) :
        E e := by
      simp only [E, MethodText.entries, Option.elim_some, ← List.append_assoc]
      exact List.mem_append_left _ he
    obtain ⟨hasks₁, hn'⟩ := Writer.does_entry (hE (.utf8 name) (by simp)) _ _ _ hn
    obtain ⟨hasks₂, hd'⟩ := Writer.does_entry (hE (.utf8 descriptor) (by simp)) _ _ _ hd
    obtain ⟨hasks₃, hc'⟩ := Writer.does_entry (hE (.utf8 "Code") (by simp)) _ _ _ hc
    have hasks₄ : p₃.Asks E draft.pool := hdrafts.asks.mono fun e ⟨st, hst, he⟩ =>
      List.mem_append_right _ (List.mem_append_right _ (List.mem_flatMap.mpr ⟨st, hst, he⟩))
    have hasks₅ : draft.pool.Asks E r := hmore.mono fun e he => hE e (by simp [← he])
    have hafter : p₃.Extends r := hasks₄.grows.trans hasks₅.grows
    refine ⟨hasks₁.trans (hasks₂.trans (hasks₃.trans (hasks₄.trans hasks₅))), fun hp => ?_⟩
    have hp₁ := hasks₁.sound hp
    have hp₂ := hasks₂.sound hp₁
    have hp₃ := hasks₃.sound hp₂
    exact ⟨_, spells_mk access n d [.mk c (codeBody k)], rfl,
      ((hasks₂.grows.trans hasks₃.grows).trans hafter).holds (hn' hp), (hasks₃.grows.trans hafter).holds (hd' hp₁),
      .inr ⟨statements, c, draft, k, rfl, ⟨hdrafted _ _ hdraft, ⟨_, hdrafts⟩, hfinished (hasks₄.sound hp₃),
        (hdrafts.handlers hp₃).imp fun _ _ hh => hh.grows hasks₅.grows⟩, hafter.holds (hc' hp₂), rfl⟩⟩

/-! ### Calls -/

namespace Call

/-- The entries that a call may ask for. -/
def entries : Call → List Entry
  | access _ | major _ => []
  | source file => [.utf8 "SourceFile", .utf8 file]
  | interface name => [.classRef name]
  | constant e => [e]
  | field f => f.entries
  | method m => m.entries

/-- The flags that a call sets. -/
def access? : Call → Option Access
  | access flags => some flags
  | _ => none

/-- The version that a call sets. -/
def major? : Call → Option UInt16
  | major version => some version
  | _ => none

/-- The source file that a call adds. -/
def source? : Call → Option String
  | source file => some file
  | _ => none

/-- The interface that a call adds. -/
def interface? : Call → Option String
  | interface name => some name
  | _ => none

/-- The field that a call adds. -/
def field? : Call → Option FieldText
  | field f => some f
  | _ => none

/-- The method that a call adds. -/
def method? : Call → Option MethodText
  | method m => some m
  | _ => none

end Call

/-- The entries that building a class may ask for. -/
def buildEntries (name : String) (superName : Option String) (calls : List Call) : List Entry :=
  .classRef name :: superName.toList.map .classRef ++ calls.flatMap Call.entries

/-- Whether a draft is that of the code of a method. It is made where the calls before that of the method have been
carried out. -/
def HasDraft (name : String) (superName : Option String) (calls : List Call) (m : MethodText)
    (statements : List Statement) (d : Draft) : Prop :=
  ∃ before after written pool, calls = before ++ .method m :: after ∧
    Writer.calls name superName before .empty = .ok (written, pool) ∧ m.draft statements pool = .ok d

theorem HasDraft.append {name : String} {superName : Option String} {calls : List Call} {m : MethodText}
    {statements : List Statement} {d : Draft} (h : HasDraft name superName calls m statements d)
    (more : List Call) : HasDraft name superName (calls ++ more) m statements d := by
  obtain ⟨before, after, written, pool, rfl, hrest⟩ := h
  exact ⟨before, after ++ more, written, pool, by rw [List.append_assoc, List.cons_append], hrest⟩

/-- Whether an attribute names a source file, with the constants of a pool. -/
def SourceWritten (pool : Pool) (file : String) (a : NamedAttribute) : Prop :=
  ∃ name index, pool.Holds name (.utf8 "SourceFile") ∧ pool.Holds index (.utf8 file) ∧
    a = .mk name (.sourceFile index)

/-- Whether the superclass is the one described, with the constants of a pool. -/
def SuperWritten (pool : Pool) (superName : Option String) (i : UInt16) : Prop :=
  superName = none ∧ i = 0 ∨ ∃ s, superName = some s ∧ pool.Names i (.classRef s)

section

variable {p q : Pool} (hext : p.Extends q) {Drafted Drafted' : List Statement → Draft → Prop}
  (hdrafted : ∀ statements d, Drafted statements d → Drafted' statements d)
include hext

theorem Finished.grows {d : Draft} {k : CodeAttribute} (h : Finished d p k) : Finished d q k := by
  refine ⟨h.maxStack, h.maxLocals, h.code, h.handlers, h.attributes.imp_right ?_⟩
  rintro ⟨name, hname, hk⟩
  exact ⟨name, hext.holds hname, hk⟩

include hdrafted

theorem CodeWritten.grows {statements : List Statement} {d : Draft} {k : CodeAttribute}
    (h : CodeWritten p Drafted statements d k) : CodeWritten q Drafted' statements d k :=
  ⟨hdrafted _ _ h.drafted, h.drafts.imp fun _ hd => hd.mono hdrafted, h.finished.grows hext,
    h.handlers.imp fun _ _ hh => hh.grows hext⟩

theorem MethodWritten.grows {m : MethodText} {i : MemberInfo} (h : MethodWritten p Drafted m i) :
    MethodWritten q Drafted' m i := by
  refine ⟨h.access, hext.holds h.name, hext.holds h.descriptor, h.attributes.imp_right ?_⟩
  rintro ⟨statements, name, d, k, hcode, hwritten, hname, hattributes⟩
  exact ⟨statements, name, d, k, hcode, hwritten.grows hext hdrafted, hext.holds hname, hattributes⟩

end

theorem SourceWritten.grows {p q : Pool} (hext : p.Extends q) {file : String} {a : NamedAttribute}
    (h : SourceWritten p file a) : SourceWritten q file a := by
  obtain ⟨name, index, hname, hindex, ha⟩ := h
  exact ⟨name, index, hext.holds hname, hext.holds hindex, ha⟩

theorem SuperWritten.grows {p q : Pool} (hext : p.Extends q) {superName : Option String} {i : UInt16}
    (h : SuperWritten p superName i) : SuperWritten q superName i :=
  h.imp_right fun ⟨s, hs, hi⟩ => ⟨s, hs, hext.names hi⟩

/-! ### Classes under construction -/

/-- Whether a class under construction is what some calls make, the latest one first, with the constants of a pool;
`Drafted` says which drafts are made of the code of a method. -/
structure DraftWritten (pool : Pool) (name : String) (superName : Option String)
    (Drafted : MethodText → List Statement → Draft → Prop) (done : List Call) (d : ClassDraft) : Prop where
  access : d.access = (done.filterMap Call.access?).head?.getD defaultAccess
  major : d.major = (done.filterMap Call.major?).head?.getD defaultMajor
  thisClass : pool.Names d.thisClass (.classRef name)
  superClass : SuperWritten pool superName d.superClass
  interfaces : List.Forall₂ (fun name i => pool.Names i (.classRef name)) (done.filterMap Call.interface?) d.interfaces
  fields : List.Forall₂ (fun f w => ∃ m, w.Spells m ∧ FieldWritten pool f m) (done.filterMap Call.field?) d.fields
  methods : List.Forall₂ (fun m w => ∃ i, w.Spells i ∧ MethodWritten pool (Drafted m) m i)
    (done.filterMap Call.method?) d.methods
  attributes : List.Forall₂ (fun file a => ∃ b : NamedAttribute, a = (b.name, b.body.bytes) ∧ SourceWritten pool file b)
    (done.filterMap Call.source?) d.attributes

theorem DraftWritten.grows {p q : Pool} (hext : p.Extends q) {name : String} {superName : Option String}
    {Drafted Drafted' : MethodText → List Statement → Draft → Prop}
    (hdrafted : ∀ m statements d, Drafted m statements d → Drafted' m statements d) {done : List Call} {d : ClassDraft}
    (h : DraftWritten p name superName Drafted done d) : DraftWritten q name superName Drafted' done d where
  access := h.access
  major := h.major
  thisClass := hext.names h.thisClass
  superClass := h.superClass.grows hext
  interfaces := h.interfaces.imp fun _ _ hi => hext.names hi
  fields := h.fields.imp fun _ _ ⟨m, hm, hf⟩ => ⟨m, hm, hf.grows hext⟩
  methods := h.methods.imp fun m _ ⟨i, hi, hm⟩ => ⟨i, hi, hm.grows hext (hdrafted m)⟩
  attributes := h.attributes.imp fun _ _ ⟨b, hb, hfile⟩ => ⟨b, hb, hfile.grows hext⟩

namespace Writer

/-- A class that is begun. -/
theorem does_start (name : String) (superName : Option String)
    (Drafted : MethodText → List Statement → Draft → Prop) :
    Does (start name superName) (· ∈ buildEntries name superName []) fun q d =>
      DraftWritten q name superName Drafted [] d := by
  have hthis : Does (onPool (Pool.classRef name)) (· ∈ buildEntries name superName []) fun q i =>
      q.Names i (.classRef name) := does_entry (e := .classRef name) (by simp [buildEntries])
  unfold start
  cases superName with
  | none =>
    simp only [pure_bind]
    refine (hthis.bind (fun i => does_pure (ClassDraft.mk defaultAccess defaultMajor i 0 [] [] [] []))
      fun hext _ h => hext.names h).mono ?_
    rintro q _ ⟨i, hi, rfl⟩
    exact ⟨rfl, rfl, hi, .inl ⟨rfl, rfl⟩, .nil, .nil, .nil, .nil⟩
  | some s =>
    have hsuper : Does (onPool (Pool.classRef s)) (· ∈ buildEntries name (some s) []) fun q i =>
        q.Names i (.classRef s) := does_entry (e := .classRef s) (by simp [buildEntries])
    refine (hthis.bind (fun i => hsuper.bind
      (fun j => does_pure (ClassDraft.mk defaultAccess defaultMajor i j [] [] [] []))
      fun hext _ h => hext.names h) fun hext _ h => hext.names h).mono ?_
    rintro q _ ⟨i, hi, j, hj, rfl⟩
    exact ⟨rfl, rfl, hi, .inr ⟨s, rfl, hj⟩, .nil, .nil, .nil, .nil⟩

end Writer

section

variable {name : String} {superName : Option String} {done : List Call} {d d' : ClassDraft} {p q : Pool}

/-- **One call more** adds its part, and leaves the others as they are. -/
theorem DraftWritten.call (hdone : Writer.calls name superName done.reverse .empty = .ok (d, p)) {c : Call}
    (h : Writer.call d c p = .ok (d', q)) : p.Asks (· ∈ c.entries) q ∧ (p.Sound →
      DraftWritten p name superName (HasDraft name superName done.reverse) done d →
      DraftWritten q name superName (HasDraft name superName (c :: done).reverse) (c :: done) d') := by
  have hmore (m : MethodText) (statements : List Statement) (k : Draft)
      (hk : HasDraft name superName done.reverse m statements k) :
      HasDraft name superName (c :: done).reverse m statements k := by
    rw [List.reverse_cons]
    exact hk.append [c]
  cases c with
  | access flags =>
    cases h
    exact ⟨.refl, fun _ hd => { hd.grows (.refl p) hmore with access := rfl }⟩
  | major version =>
    cases h
    exact ⟨.refl, fun _ hd => { hd.grows (.refl p) hmore with major := rfl }⟩
  | source file =>
    have hdoes : Writer.Does (Writer.call d (.source file)) (· ∈ (Call.source file).entries) fun q d' => ∃ n i,
        q.Holds n (.utf8 "SourceFile") ∧ q.Holds i (.utf8 file) ∧
          d' = { d with attributes := (n, bytes2 i) :: d.attributes } :=
      Writer.does_nameAndDescriptor (by simp [Call.entries]) (by simp [Call.entries]) _
    obtain ⟨hasks, hsource⟩ := hdoes p d' q h
    refine ⟨hasks, fun hp hd => ?_⟩
    have hd := hd.grows hasks.grows hmore
    obtain ⟨n, i, hn, hi, rfl⟩ := hsource hp
    exact { hd with attributes := .cons ⟨.mk n (.sourceFile i), rfl, n, i, hn, hi, rfl⟩ hd.attributes }
  | interface n =>
    obtain ⟨i, _, hi, hpure⟩ := Writer.bind_eq_ok.mp h
    cases hpure
    obtain ⟨hasks, hnames⟩ := Writer.does_entry (E := (· ∈ (Call.interface n).entries)) (e := .classRef n)
      (by simp [Call.entries]) _ _ _ hi
    refine ⟨hasks, fun hp hd => ?_⟩
    have hd := hd.grows hasks.grows hmore
    exact { hd with interfaces := .cons (hnames hp) hd.interfaces }
  | constant e =>
    obtain ⟨i, _, hi, hpure⟩ := Writer.bind_eq_ok.mp h
    cases hpure
    obtain ⟨hasks, -⟩ := Writer.does_entry (E := (· ∈ (Call.constant e).entries)) (e := e)
      (by simp [Call.entries]) _ _ _ hi
    exact ⟨hasks, fun _ hd => { hd.grows hasks.grows hmore with }⟩
  | field f =>
    obtain ⟨w, _, hw, hpure⟩ := Writer.bind_eq_ok.mp h
    cases hpure
    obtain ⟨hasks, hfield⟩ := does_field f _ _ _ hw
    refine ⟨hasks, fun hp hd => ?_⟩
    have hd := hd.grows hasks.grows hmore
    exact { hd with fields := .cons (hfield hp) hd.fields }
  | method m =>
    obtain ⟨w, _, hw, hpure⟩ := Writer.bind_eq_ok.mp h
    cases hpure
    obtain ⟨hasks, hmethod⟩ := method_written hw
    refine ⟨hasks, fun hp hd => ?_⟩
    have hd := hd.grows hasks.grows hmore
    obtain ⟨i, hi, hm⟩ := hmethod hp
    refine { hd with methods := .cons ⟨i, hi, hm.grows (.refl q) fun statements k hk => ?_⟩ hd.methods }
    exact ⟨done.reverse, [], d, p, List.reverse_cons, hdone, hk⟩

theorem Writer.calls_concat (name : String) (superName : Option String) (cs : List Call) (c : Call) :
    calls name superName (cs ++ [c]) = calls name superName cs >>= fun d => call d c := by
  unfold calls
  simp only [List.foldlM_append, List.foldlM_cons, List.foldlM_nil, bind_assoc, bind_pure]

/-- What calls make. The induction is on the calls, from the latest one. -/
theorem draft_written (done : List Call) : ∀ {d : ClassDraft} {p : Pool},
    Writer.calls name superName done.reverse .empty = .ok (d, p) →
      Pool.empty.Asks (· ∈ buildEntries name superName done.reverse) p ∧
        DraftWritten p name superName (HasDraft name superName done.reverse) done d := by
  induction done with
  | nil =>
    intro d p h
    obtain ⟨d', q, hstart, hpure⟩ := Writer.bind_eq_ok.mp h
    cases hpure
    obtain ⟨hasks, hwritten⟩ := Writer.does_start name superName (HasDraft name superName []) _ _ _ hstart
    exact ⟨hasks, hwritten Pool.sound_empty⟩
  | cons c done ih =>
    intro d p h
    rw [List.reverse_cons, Writer.calls_concat] at h
    obtain ⟨d', p', hdone, hcall⟩ := Writer.bind_eq_ok.mp h
    obtain ⟨hasks, hwritten⟩ := ih hdone
    obtain ⟨hasks', hnext⟩ := DraftWritten.call hdone hcall
    refine ⟨(hasks.mono fun e he => ?_).trans (hasks'.mono fun e he => ?_),
      hnext (hasks.sound Pool.sound_empty) hwritten⟩
    · rcases List.mem_append.mp he with he | he
      · exact List.mem_append_left _ he
      · exact List.mem_append_right _ (by rw [List.reverse_cons, List.flatMap_append]; exact List.mem_append_left _ he)
    · exact List.mem_append_right _ (by simp [he])

end

/-- The constants of a pool, finished: with the unusable one in front. -/
def Pool.finished (p : Pool) : ConstantPool := ⟨#[.unusable] ++ p.entries⟩

theorem Pool.bytes_finished (p : Pool) : p.finished.bytes = p.bytes := by
  rw [ConstantPool.bytes, Pool.bytes, Pool.finished, ConstantPool.size]
  simp [constantBytes, Nat.add_comm]

theorem exists_forall₂ {α β γ : Type} {A : β → γ → Prop} {B : α → γ → Prop} {as : List α} {bs : List β}
    (h : List.Forall₂ (fun a b => ∃ c, A b c ∧ B a c) as bs) :
    ∃ cs, List.Forall₂ A bs cs ∧ List.Forall₂ B as cs := by
  induction h with
  | nil => exact ⟨[], .nil, .nil⟩
  | cons hab _ ih =>
    obtain ⟨c, ha, hb⟩ := hab
    obtain ⟨cs, has, hbs⟩ := ih
    exact ⟨c :: cs, .cons ha has, .cons hb hbs⟩

/-- Whether a class file is what calls build, with the constants of a pool: the parts that they add stand in the order
of the calls, and of the flags and versions that they set the last ones count. -/
structure BuildWritten (pool : Pool) (name : String) (superName : Option String) (calls : List Call) (f : ClassFile) :
    Prop where
  minor : f.minor = 0
  major : f.major = (calls.filterMap Call.major?).getLast?.getD defaultMajor
  access : f.access = (calls.filterMap Call.access?).getLast?.getD defaultAccess
  thisClass : pool.Names f.thisClass (.classRef name)
  superClass : SuperWritten pool superName f.superClass
  interfaces : List.Forall₂ (fun name i => pool.Names i (.classRef name)) (calls.filterMap Call.interface?) f.interfaces
  fields : List.Forall₂ (FieldWritten pool) (calls.filterMap Call.field?) f.fields
  methods : List.Forall₂ (fun m i => MethodWritten pool (HasDraft name superName calls m) m i)
    (calls.filterMap Call.method?) f.methods
  attributes : List.Forall₂ (SourceWritten pool) (calls.filterMap Call.source?) f.attributes

/-- What calls add stands in their order. -/
theorem forall₂_reversed {α β : Type} {R : α → β → Prop} {part : Call → Option α} {done : List Call} {bs : List β}
    (h : List.Forall₂ R (done.filterMap part) bs) : List.Forall₂ R (done.reverse.filterMap part) bs.reverse := by
  rw [List.filterMap_reverse]
  exact List.forall₂_reverse_iff.mpr h

/-- **Building writes the bytes of a class file** that is the one the calls describe. -/
theorem written_of_build {name : String} {superName : Option String} {calls : List Call} {bytes : List UInt8}
    (h : build name superName calls = .ok bytes) :
    ∃ f d pool, Writer.calls name superName calls .empty = .ok (d, pool) ∧ pool.overflow = false ∧
      bytes = f.toBytes ∧ f.pool = pool.finished ∧ Pool.empty.Asks (· ∈ buildEntries name superName calls) pool ∧
      BuildWritten pool name superName calls f := by
  unfold build at h
  obtain ⟨⟨d, pool⟩, hrun, h⟩ := except_bind_eq_ok.mp h
  dsimp only at h
  split at h
  · cases h
  next hfits =>
  cases h
  obtain ⟨done, rfl⟩ : ∃ done : List Call, calls = done.reverse := ⟨calls.reverse, calls.reverse_reverse.symm⟩
  obtain ⟨hasks, hd⟩ := draft_written done hrun
  obtain ⟨ms, hms, hfields⟩ := exists_forall₂ (forall₂_reversed hd.fields)
  obtain ⟨is, his, hmethods⟩ := exists_forall₂ (forall₂_reversed hd.methods)
  obtain ⟨as, has, hattributes⟩ := exists_forall₂ (forall₂_reversed hd.attributes)
  rw [← List.forall₂_map_right_iff, List.forall₂_eq_eq_eq] at has
  refine ⟨⟨0, d.major, pool.finished, d.access, d.thisClass, d.superClass, d.interfaces.reverse, ms, is, as⟩, d, pool,
    hrun, by simpa using hfits, ?_, rfl, hasks, ⟨rfl, ?_, ?_, hd.thisClass, hd.superClass,
    forall₂_reversed hd.interfaces, hfields, hmethods, hattributes⟩⟩
  · rw [toBytes, Pool.bytes_finished, head, tail, ← memberBytes_eq hms, ← memberBytes_eq his, ← attributeBytes_map,
      ← has, ClassDraft.bytes]
    simp [countedBytes, List.append_assoc]
  · rw [List.filterMap_reverse, List.getLast?_reverse]
    exact hd.major
  · rw [List.filterMap_reverse, List.getLast?_reverse]
    exact hd.access

/-! ### Described classes -/

namespace ClassText

variable (c : ClassText)

@[simp] theorem access?_calls : c.calls.filterMap Call.access? = [c.access] := by
  simp [calls, Call.access?, List.filterMap_cons, List.filterMap_map, Function.comp_def]

@[simp] theorem major?_calls : c.calls.filterMap Call.major? = [c.major] := by
  simp [calls, Call.major?, List.filterMap_cons, List.filterMap_map, Function.comp_def]

@[simp] theorem source?_calls : c.calls.filterMap Call.source? = c.source.toList := by
  simp [calls, Call.source?, List.filterMap_cons, List.filterMap_map, Function.comp_def]

@[simp] theorem interface?_calls : c.calls.filterMap Call.interface? = c.interfaces := by
  simp [calls, Call.interface?, List.filterMap_cons, List.filterMap_map, Function.comp_def]

@[simp] theorem field?_calls : c.calls.filterMap Call.field? = c.fields := by
  simp [calls, Call.field?, List.filterMap_cons, List.filterMap_map, Function.comp_def]

@[simp] theorem method?_calls : c.calls.filterMap Call.method? = c.methods := by
  simp [calls, Call.method?, List.filterMap_cons, List.filterMap_map, Function.comp_def]

/-- The entries that a class may ask for. -/
def entries : List Entry := buildEntries c.name c.superName c.calls

/-- Whether a draft is that of the code of a method of a class. -/
def HasDraft (m : MethodText) (statements : List Statement) (d : Draft) : Prop :=
  Assembly.HasDraft c.name c.superName c.calls m statements d

end ClassText

/-- Whether a class file is the one that is described, with the constants of a pool. -/
structure ClassWritten (pool : Pool) (c : ClassText) (f : ClassFile) : Prop where
  minor : f.minor = 0
  major : f.major = c.major
  access : f.access = c.access
  thisClass : pool.Names f.thisClass (.classRef c.name)
  superClass : SuperWritten pool c.superName f.superClass
  interfaces : List.Forall₂ (fun name i => pool.Names i (.classRef name)) c.interfaces f.interfaces
  fields : List.Forall₂ (FieldWritten pool) c.fields f.fields
  methods : List.Forall₂ (fun m i => MethodWritten pool (c.HasDraft m) m i) c.methods f.methods
  attributes : List.Forall₂ (SourceWritten pool) c.source.toList f.attributes

/-- **Assembling writes the bytes of a class file** that is the one described. -/
theorem written_of_assemble {c : ClassText} {bytes : List UInt8} (h : c.assemble = .ok bytes) :
    ∃ f d pool, Writer.calls c.name c.superName c.calls .empty = .ok (d, pool) ∧ pool.overflow = false ∧
      bytes = f.toBytes ∧ f.pool = pool.finished ∧ Pool.empty.Asks (· ∈ c.entries) pool ∧ ClassWritten pool c f := by
  obtain ⟨f, d, pool, hrun, hfits, hbytes, hf, hasks, hwritten⟩ := written_of_build h
  refine ⟨f, d, pool, hrun, hfits, hbytes, hf, hasks, hwritten.minor, by simpa using hwritten.major,
    by simpa using hwritten.access, hwritten.thisClass, hwritten.superClass, c.interface?_calls ▸ hwritten.interfaces,
    c.field?_calls ▸ hwritten.fields, c.method?_calls ▸ hwritten.methods, c.source?_calls ▸ hwritten.attributes⟩

end Jvm.Assembly
