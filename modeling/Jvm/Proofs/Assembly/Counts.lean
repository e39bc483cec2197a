import Mathlib
import Jvm.Proofs.Assembly.Instructions
import Jvm.Proofs.Assembly.Written

/-! # Counts of assembled classes

Each table of a class file stands behind a 16-bit count. Whatever calls build a class, its counts are right exactly
where the tables that the calls make can be counted, and no long or double constant has the greatest index of
the pool, so that its second slot lies beyond (`exact_iff_countable`). -/

/-! ### Class files -/

namespace Jvm.ClassFile

open Text

mutual

/-- The numbers that the body of an attribute has as counts. -/
def Attribute.counts : Attribute → List Nat
  | .code _ _ _ handlers attributes =>
    handlers.length :: attributes.length :: NamedAttribute.listCounts attributes
  | .exceptions classes => [classes.length]
  | .lineNumbers rows => [rows.length]
  | .constantValue _ | .sourceFile _ | .other _ => []

/-- The numbers that an attribute has as counts. -/
def NamedAttribute.counts : NamedAttribute → List Nat
  | .mk _ body => body.counts

/-- The numbers that attributes have as counts. -/
def NamedAttribute.listCounts : List NamedAttribute → List Nat
  | [] => []
  | a :: rest => a.counts ++ NamedAttribute.listCounts rest

end

/-- The numbers that a field or a method has as counts. -/
def MemberInfo.counts (m : MemberInfo) : List Nat :=
  m.attributes.length :: NamedAttribute.listCounts m.attributes

/-- The number of bytes of a text, which stands in front of them. -/
def Constant.counts : Constant → List Nat
  | .utf8 s => [(ModifiedUtf8.encode s).length]
  | _ => []

/-- The numbers that a constant pool has as counts; its own is that of its slots and one more. -/
def ConstantPool.counts (pool : ConstantPool) : List Nat :=
  pool.size :: pool.entries.toList.flatMap Constant.counts

end Jvm.ClassFile

namespace Jvm.ClassFile

/-- The numbers that a class file has as counts, in the order in which its bytes give them. -/
def counts (c : ClassFile) : List Nat :=
  c.pool.counts ++ (c.interfaces.length :: c.fields.length :: c.fields.flatMap MemberInfo.counts)
    ++ (c.methods.length :: c.methods.flatMap MemberInfo.counts)
    ++ (c.attributes.length :: NamedAttribute.listCounts c.attributes)

/-- Whether all counts that are written for a class file are right. -/
def Exact (c : ClassFile) : Prop := ∀ n ∈ c.counts, n.toUInt16.toNat = n

theorem exact_iff {c : ClassFile} : c.Exact ↔ ∀ n ∈ c.counts, n < 2 ^ 16 := by
  refine forall₂_congr fun n _ => ⟨fun h => h ▸ n.toUInt16.toNat_lt, fun h => ?_⟩
  exact Reader.toNat_toUInt16 (Nat.le_of_lt_succ h)

end Jvm.ClassFile

namespace Jvm.Assembly

open ClassFile Reader

/-! ### Pools -/

namespace Pool

variable {p q : Pool}

/-- Whether the last constant has the greatest index and takes one more slot. -/
def Straddled (p : Pool) : Prop :=
  ∃ cs c, c.isWide = true ∧ cs.length + 1 = maxIndex ∧ p.entries.toList = cs ++ [c, .unusable]

/-- Whether a pool that has not run over has no more slots than indices, or one more for a wide constant. -/
def Bounded (p : Pool) : Prop := p.overflow = false → p.entries.size ≤ maxIndex ∨ p.Straddled

theorem Straddled.size (h : p.Straddled) : p.entries.size = maxIndex + 1 := by
  obtain ⟨cs, c, -, hlength, hcs⟩ := h
  rw [← Array.length_toList, hcs, List.length_append, ← hlength]
  rfl

theorem bounded_add (c : Constant) (p : Pool) : (p.add c).2.Bounded := by
  intro hfits
  obtain ⟨-, hindex⟩ : p.overflow = false ∧ p.entries.size + 1 ≤ maxIndex := by simpa [add] using hfits
  unfold add
  dsimp only
  split
  · next hwide =>
    rcases hindex.eq_or_lt with heq | hlt
    · exact .inr ⟨p.entries.toList, c, hwide, heq, by simp⟩
    · exact .inl (by simpa using hlt)
  · exact .inl (by simpa using hindex)

theorem Bounded.index (hp : p.Bounded) (c : Constant) : (index c p).2.Bounded := by
  change (p.intern c).2.Bounded
  unfold intern
  split
  · exact hp
  · exact bounded_add c p

/-- What adding constants keeps is kept by asking for entries. -/
theorem kept_entry {P : Pool → Prop} (hindex : ∀ c p, P p → P (index c p).2) (hadd : ∀ c p, P p → P (p.add c).2)
    (e : Entry) (hp : P p) : P (entry e p).2 := by
  have hclass {p : Pool} (hp : P p) (name : String) : P (classRef name p).2 := hindex _ _ (hindex _ _ hp)
  have hnameAndType {p : Pool} (hp : P p) (name descriptor : String) : P (nameAndType name descriptor p).2 :=
    hindex _ _ (hindex _ _ (hindex _ _ hp))
  cases e with
  | raw c => exact hadd c p hp
  | utf8 | integer | float | long | double => exact hindex _ p hp
  | classRef name => exact hclass hp name
  | string => exact hindex _ _ (hindex _ _ hp)
  | nameAndType name descriptor => exact hnameAndType hp name descriptor
  | fieldRef owner name descriptor | methodRef owner name descriptor | interfaceMethodRef owner name descriptor =>
    exact hindex _ _ (hnameAndType (hclass hp owner) name descriptor)

theorem Bounded.asks {E : Entry → Prop} (hp : p.Bounded) (h : p.Asks E q) : q.Bounded := by
  induction h with
  | refl => exact hp
  | tail _ hstep ih =>
    obtain ⟨e, -, rfl⟩ := hstep
    exact kept_entry (P := Bounded) (fun c p hp => hp.index c) (fun c p _ => bounded_add c p) e ih

theorem bounded_empty : Pool.empty.Bounded := fun _ => .inl (Nat.zero_le _)

/-- A pool has too many slots to be counted exactly where its last constant straddles the end. -/
theorem Bounded.size_le_iff (hp : p.Bounded) (hfits : p.overflow = false) :
    p.entries.size ≤ maxIndex ↔ ¬ p.Straddled := by
  refine ⟨fun hle hstraddled => ?_, (hp hfits).resolve_right⟩
  have := hstraddled.size
  omega

end Pool

/-! ### Classes -/

/-- Whether the tables of a method can be counted. -/
def MethodText.Countable (m : MethodText) : Prop :=
  ∀ statements ∈ m.code, (statements.filterMap Statement.handler?).length < 2 ^ 16 ∧
    (statements.filterMap Statement.line?).length < 2 ^ 16

/-- Whether all that calls add to a class can be counted, with the constants of a pool. -/
structure Countable (calls : List Call) (pool : Pool) : Prop where
  slots : ¬ pool.Straddled
  texts : ∀ s, .utf8 s ∈ pool.entries.toList → Short s
  interfaces : (calls.filterMap Call.interface?).length < 2 ^ 16
  fields : (calls.filterMap Call.field?).length < 2 ^ 16
  methods : (calls.filterMap Call.method?).length < 2 ^ 16
  sources : (calls.filterMap Call.source?).length < 2 ^ 16
  tables : ∀ m ∈ calls.filterMap Call.method?, m.Countable

section

variable {pool : Pool}

theorem FieldWritten.counts_lt {f : FieldText} {i : MemberInfo} (h : FieldWritten pool f i) :
    ∀ n ∈ i.counts, n < 2 ^ 16 := by
  rw [MemberInfo.counts]
  rcases h.attributes with ⟨-, has⟩ | ⟨v, name, index, -, -, -, has⟩ <;>
    simp [has, NamedAttribute.listCounts, NamedAttribute.counts, Attribute.counts]

theorem sources_counts {sources : List String} {as : List NamedAttribute}
    (h : List.Forall₂ (SourceWritten pool) sources as) : NamedAttribute.listCounts as = [] := by
  induction h with
  | nil => rfl
  | cons hb _ ih =>
    obtain ⟨name, index, -, -, rfl⟩ := hb
    exact ih

theorem MethodWritten.counts_lt_iff {Drafted : List Statement → Draft → Prop} {m : MethodText} {i : MemberInfo}
    (h : MethodWritten pool Drafted m i) : (∀ n ∈ i.counts, n < 2 ^ 16) ↔ m.Countable := by
  rw [MemberInfo.counts, MethodText.Countable]
  rcases h.attributes with ⟨hnone, has⟩ | ⟨statements, name, d, k, hm, hwritten, -, has⟩
  · simp [has, hnone, NamedAttribute.listCounts]
  obtain ⟨-, ⟨_, hdrafts⟩, hfinished, hhandles⟩ := hwritten
  have hhandlers : k.handlers.length = (statements.filterMap Statement.handler?).length := by
    rw [hhandles.length_eq, hfinished.handlers.length_eq]
  have hlines : (statements.filterMap Statement.line?).length = d.lines.length := by
    rw [← hdrafts.lines, List.length_map, List.length_reverse]
  rcases hfinished.attributes with ⟨hnil, hk⟩ | ⟨n, -, hk⟩ <;>
    simp [codeBody, NamedAttribute.listCounts, NamedAttribute.counts, Attribute.counts, *]

end

theorem forall_mem_iff {α β : Type} {P : α → Prop} {Q : β → Prop} {as : List α} {bs : List β}
    (h : List.Forall₂ (fun a b => P a ↔ Q b) as bs) : (∀ a ∈ as, P a) ↔ ∀ b ∈ bs, Q b := by
  induction h with
  | nil => simp
  | cons hab _ ih => rw [List.forall_mem_cons, List.forall_mem_cons, hab, ih]

theorem forall_mem_flatMap {α β : Type} {g : α → List β} {P : β → Prop} {as : List α} :
    (∀ b ∈ as.flatMap g, P b) ↔ ∀ a ∈ as, ∀ b ∈ g a, P b := by
  simp only [List.mem_flatMap, forall_exists_index, and_imp]
  exact ⟨fun h a ha b hb => h b a ha hb, fun h b a ha hb => h a ha b hb⟩

theorem texts_lt_iff {constants : List Constant} :
    (∀ c ∈ constants, ∀ n ∈ c.counts, n < 2 ^ 16) ↔ ∀ s, .utf8 s ∈ constants → Short s := by
  constructor
  · intro h s hs
    exact Nat.le_of_lt_succ (h _ hs _ (List.mem_singleton_self _))
  · intro h c hc n hn
    cases c with
    | utf8 s =>
      obtain rfl := List.mem_singleton.mp hn
      exact Nat.lt_succ_of_le (h s hc)
    | _ => cases hn

/-- **The counts of an assembled class** are right exactly where all that the calls add to it can be counted,
whatever the calls are. -/
theorem exact_iff_countable {name : String} {superName : Option String} {calls : List Call} {bytes : List UInt8}
    (h : build name superName calls = .ok bytes) :
    ∃ f d pool, Writer.calls name superName calls .empty = .ok (d, pool) ∧ bytes = f.toBytes ∧
      f.pool = pool.finished ∧ BuildWritten pool name superName calls f ∧ (f.Exact ↔ Countable calls pool) := by
  obtain ⟨f, d, pool, hrun, hfits, hbytes, hf, hasks, hwritten⟩ := written_of_build h
  refine ⟨f, d, pool, hrun, hbytes, hf, hwritten, ?_⟩
  have hslots : f.pool.size < 2 ^ 16 ↔ ¬ pool.Straddled := by
    rw [← (Pool.bounded_empty.asks hasks).size_le_iff hfits, hf, ConstantPool.size, Pool.finished,
      Array.size_append, Pool.maxIndex]
    simp only [List.size_toArray, List.length_singleton]
    omega
  have hconstants : f.pool.entries.toList = .unusable :: pool.entries.toList := by simp [hf, Pool.finished]
  have htexts : (∀ d ∈ f.pool.entries.toList, ∀ n ∈ d.counts, n < 2 ^ 16) ↔
      ∀ s, .utf8 s ∈ pool.entries.toList → Short s := by
    rw [texts_lt_iff, hconstants]
    simp
  have hfields : ∀ i ∈ f.fields, ∀ n ∈ i.counts, n < 2 ^ 16 := by
    intro i hi
    obtain ⟨_, -, hfield⟩ := mem_of_forall₂ hwritten.fields i hi
    exact hfield.counts_lt
  have hmethods : (∀ i ∈ f.methods, ∀ n ∈ i.counts, n < 2 ^ 16) ↔
      ∀ m ∈ calls.filterMap Call.method?, m.Countable :=
    (forall_mem_iff (hwritten.methods.imp fun m i hi => hi.counts_lt_iff.symm)).symm
  rw [exact_iff, counts, ConstantPool.counts, sources_counts hwritten.attributes]
  simp only [List.forall_mem_append, List.forall_mem_cons, forall_mem_flatMap]
  rw [hslots, htexts, hmethods, ← hwritten.interfaces.length_eq, ← hwritten.fields.length_eq,
    ← hwritten.methods.length_eq, ← hwritten.attributes.length_eq]
  constructor
  · rintro ⟨⟨⟨⟨hslots, htexts⟩, hinterfaces, hfields, -⟩, hmethods, htables⟩, hsources, -⟩
    exact ⟨hslots, htexts, hinterfaces, hfields, hmethods, hsources, htables⟩
  · intro hc
    exact ⟨⟨⟨⟨hc.slots, hc.texts⟩, hc.interfaces, hc.fields, hfields⟩, hc.methods, hc.tables⟩, hc.sources,
      List.forall_mem_nil _⟩

/-- Calls in no order of parts, with two source files. -/
def interleaved : List Call :=
  [.method ⟨⟨0x0009⟩, "f", "()V", some [.line 3, .label 0, .op 0x01, .op 0xBF, .label 1, .line 5, .op 0x57, .op 0xB1,
      .handler 0 1 1 (some "E")]⟩,
    .source "A.java", .interface "I", .constant (.long 7), .access ⟨0x0421⟩,
    .field ⟨⟨0x0019⟩, "N", "I", some (.int 7)⟩, .interface "J", .method ⟨⟨0x0401⟩, "g", "()V", none⟩, .major 50,
    .source "B.java", .access ⟨0x0420⟩]

theorem exact_iff_countable_interleaved : ∃ bytes, build "A" (some objectName) interleaved = .ok bytes ∧
    ∃ f d pool, Writer.calls "A" (some objectName) interleaved .empty = .ok (d, pool) ∧ bytes = f.toBytes ∧
      f.pool = pool.finished ∧ BuildWritten pool "A" (some objectName) interleaved f ∧
      (f.Exact ↔ Countable interleaved pool) := by
  obtain ⟨bytes, hbytes⟩ : ∃ bytes, build "A" (some objectName) interleaved = .ok bytes :=
    isOk_iff.mp (by decide +kernel)
  exact ⟨bytes, hbytes, exact_iff_countable hbytes⟩

/-! ### A pool that straddles the end -/

/-- A class whose last constant has the greatest index and takes one more slot. -/
def straddling : ClassText :=
  { ClassText.ofName "A" with constants := List.replicate 65529 (.raw (.integer 0)) ++ [.long 7] }

/-- The pool of the class before its constants are added. -/
def beforeConstants : Pool := (Pool.classRef objectName (Pool.classRef "A" .empty).2).2

theorem size_beforeConstants : beforeConstants.entries.size = 4 := by cbv

theorem overflow_beforeConstants : beforeConstants.overflow = false := by cbv

theorem lookup_beforeConstants : beforeConstants.known.lookup (.long 7) = none := by cbv

/-- The class before its constants are added. -/
def draftBefore : ClassDraft := ⟨defaultAccess, defaultMajor, 2, 4, [], [], [], []⟩

theorem foldlM_constants (es : List Entry) (p : Pool) :
    ((es.map Call.constant).foldlM Writer.call draftBefore) p =
      .ok (draftBefore, es.foldl (fun p e => (Pool.entry e p).2) p) := by
  induction es generalizing p with
  | nil => rfl
  | cons e es ih =>
    rw [List.map_cons, List.foldlM_cons]
    exact Writer.bind_eq_ok.mpr ⟨draftBefore, _, rfl, ih _⟩

theorem calls_constants (es : List Entry) :
    Writer.calls "A" (some objectName) { ClassText.ofName "A" with constants := es }.calls .empty =
      .ok (draftBefore, es.foldl (fun p e => (Pool.entry e p).2) beforeConstants) := by
  have hcalls : { ClassText.ofName "A" with constants := es }.calls =
      [.access defaultAccess, .major defaultMajor] ++ es.map .constant := by
    simp [ClassText.calls, ClassText.ofName]
  have hstart : Writer.start "A" (some objectName) .empty = .ok (draftBefore, beforeConstants) := by cbv
  rw [hcalls, Writer.calls]
  refine Writer.bind_eq_ok.mpr ⟨draftBefore, beforeConstants, hstart, ?_⟩
  exact foldlM_constants es beforeConstants

/-- The slots of the class take all 16-bit indices but zero. -/
theorem calls_straddling : ∃ pool, pool.entries.size = 65535 ∧ pool.overflow = false ∧
    Writer.calls straddling.name straddling.superName straddling.calls .empty = .ok (draftBefore, pool) := by
  have hraw := Pool.foldl_raw (n := 65529) overflow_beforeConstants (by rw [size_beforeConstants]; decide)
  refine ⟨_, ?_, ?_, calls_constants _⟩ <;> rw [List.foldl_append, hraw] <;>
    simp [Pool.entry, Pool.index, Pool.intern, lookup_beforeConstants, Pool.add, Constant.isWide,
      size_beforeConstants, overflow_beforeConstants, Pool.maxIndex]

theorem build_eq_ok {name : String} {superName : Option String} {calls : List Call} {d : ClassDraft} {pool : Pool}
    (hrun : Writer.calls name superName calls .empty = .ok (d, pool)) (hfits : pool.overflow = false) :
    build name superName calls = .ok (d.bytes pool) := by
  rw [build, hrun]
  change (if pool.overflow = true then _ else _) = _
  rw [hfits]
  rfl

/-- A class is assembled whose constants are counted as none, where there are 65535 slots. -/
theorem miscounted_straddling : .raw .unusable ∉ straddling.constants ∧ ∃ bytes d pool,
    straddling.assemble = .ok bytes ∧
    Writer.calls straddling.name straddling.superName straddling.calls .empty = .ok (d, pool) ∧
    pool.entries.size = 65535 ∧ bytes.take 10 = bytes4 magic ++ bytes2 0 ++ bytes2 52 ++ bytes2 0 := by
  obtain ⟨pool, hsize, hfits, hrun⟩ := calls_straddling
  refine ⟨fun hmem => ?_, _, _, pool, build_eq_ok hrun hfits, hrun, hsize, ?_⟩
  · rcases List.mem_append.mp hmem with hmem | hmem
    · cases List.eq_of_mem_replicate hmem
    · cases List.eq_of_mem_singleton hmem
  · rw [ClassDraft.bytes, Pool.bytes, hsize]
    rfl

end Jvm.Assembly
