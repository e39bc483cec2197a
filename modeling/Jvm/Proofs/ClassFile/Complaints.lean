import Mathlib
import Jvm.ClassFile.References

/-! # How reading a class file fails

Whatever is wrong with the bytes of a class file, reading it fails with a complaint about the format
(`isFormat_of_parse`). A nested attribute lies inside the bytes of the one around it, so that reading never
gets too deep. -/

namespace Jvm

/-- Whether a fault is a complaint about the format of a class file. -/
def Fault.IsFormat (e : Fault) : Prop := ∃ detail, e = .classFormat detail

/-- Whether all faults that a step can fail with are of some kind. -/
def FailsAs (P : Fault → Prop) {α : Type} (x : Except Fault α) : Prop := ∀ e, x = .error e → P e

section

variable {α β : Type} {P P' : Fault → Prop} {x : Except Fault α}

theorem failsAs_ok (a : α) : FailsAs P (.ok a) := fun _ h => by cases h

theorem failsAs_error {e : Fault} (h : P e) : FailsAs P (.error e : Except Fault α) := fun _ he => by
  cases he
  exact h

theorem failsAs_format (detail : String) :
    FailsAs Fault.IsFormat (.error (.classFormat detail) : Except Fault α) :=
  failsAs_error ⟨detail, rfl⟩

theorem FailsAs.mono (hx : FailsAs P x) (h : ∀ e, P e → P' e) : FailsAs P' x := fun e he => h e (hx e he)

theorem FailsAs.bind {f : α → Except Fault β} (hx : FailsAs P x) (hf : ∀ a, x = .ok a → FailsAs P (f a)) :
    FailsAs P (x >>= f) := by
  cases x with
  | ok a => exact hf a rfl
  | error e => exact failsAs_error (hx e rfl)

theorem FailsAs.map {f : α → β} (hx : FailsAs P x) : FailsAs P (x.map f) := by
  cases x with
  | ok a => exact failsAs_ok (f a)
  | error e => exact failsAs_error (hx e rfl)

theorem failsAs_ite {p : Prop} [Decidable p] {x y : Except Fault α} (hx : p → FailsAs P x)
    (hy : ¬ p → FailsAs P y) : FailsAs P (if p then x else y) := by
  split
  · exact hx ‹_›
  · exact hy ‹_›

theorem failsAs_forM {f : α → Except Fault PUnit} {as : List α} (h : ∀ a ∈ as, FailsAs P (f a)) :
    FailsAs P (as.forM f) := by
  induction as with
  | nil => exact failsAs_ok _
  | cons a as ih =>
    exact (h a List.mem_cons_self).bind fun _ _ => ih fun b hb => h b (List.mem_cons_of_mem _ hb)

theorem failsAs_mapM {f : α → Except Fault β} {as : List α} (h : ∀ a ∈ as, FailsAs P (f a)) :
    FailsAs P (as.mapM f) := by
  induction as with
  | nil => exact failsAs_ok _
  | cons a as ih =>
    rw [List.mapM_cons]
    refine (h a List.mem_cons_self).bind fun b _ => ?_
    exact (ih fun c hc => h c (List.mem_cons_of_mem _ hc)).bind fun bs _ => failsAs_ok _

theorem failsAs_foldlM {f : β → α → Except Fault β} {as : List α} (h : ∀ b, ∀ a ∈ as, FailsAs P (f b a))
    (b : β) : FailsAs P (as.foldlM f b) := by
  induction as generalizing b with
  | nil => exact failsAs_ok _
  | cons a as ih =>
    rw [List.foldlM_cons]
    exact (h b a List.mem_cons_self).bind fun c _ => ih (fun c d hd => h c d (List.mem_cons_of_mem _ hd)) c

end

namespace ClassFile

/-! ## Looking constants up -/

namespace ConstantPool

variable (p : ConstantPool) (i : UInt16)

theorem failsAs_get : FailsAs Fault.IsFormat (p.get i) := by
  unfold get
  split
  · exact failsAs_format _
  · exact failsAs_format _
  · exact failsAs_ok _

theorem failsAs_expectTag (tag : UInt8) (context : String) :
    FailsAs Fault.IsFormat (p.expectTag i tag context) := by
  refine (p.failsAs_get i).bind fun c _ => failsAs_ite (fun _ => failsAs_format _) fun _ => ?_
  exact failsAs_ok c

theorem failsAs_utf8 : FailsAs Fault.IsFormat (p.utf8 i) := by
  refine (p.failsAs_get i).bind fun c _ => ?_
  split
  · exact failsAs_ok _
  · exact failsAs_format _

theorem failsAs_className : FailsAs Fault.IsFormat (p.className i) := by
  refine (p.failsAs_get i).bind fun c _ => ?_
  split
  · exact p.failsAs_utf8 _
  · exact failsAs_format _

theorem failsAs_nameAndType : FailsAs Fault.IsFormat (p.nameAndType i) := by
  refine (p.failsAs_get i).bind fun c _ => ?_
  split
  · exact (p.failsAs_utf8 _).bind fun _ _ => (p.failsAs_utf8 _).bind fun _ _ => failsAs_ok _
  · exact failsAs_format _

theorem failsAs_member : FailsAs Fault.IsFormat (p.member i) := by
  refine (p.failsAs_get i).bind fun c _ => ?_
  split
  case h_4 => exact failsAs_format _
  all_goals exact (p.failsAs_nameAndType _).bind fun _ _ =>
    (p.failsAs_className _).bind fun _ _ => failsAs_ok _

end ConstantPool

theorem failsAs_fieldType (text : String) : FailsAs Fault.IsFormat (FieldType.parse text) := by
  unfold FieldType.parse
  split
  · exact failsAs_ok _
  · exact failsAs_format _

theorem failsAs_methodType (text : String) : FailsAs Fault.IsFormat (MethodType.parse text) := by
  unfold MethodType.parse
  split
  · exact failsAs_ok _
  · exact failsAs_format _

theorem failsAs_name (c : ClassFile) : FailsAs Fault.IsFormat c.name := c.pool.failsAs_className _

theorem failsAs_superName (c : ClassFile) : FailsAs Fault.IsFormat c.superName :=
  failsAs_ite (fun _ => failsAs_ok _) fun _ => (c.pool.failsAs_className _).map

theorem failsAs_interfaceNames (c : ClassFile) : FailsAs Fault.IsFormat c.interfaceNames :=
  failsAs_mapM fun i _ => c.pool.failsAs_className i

/-! ## Reading bytes -/

namespace Reader

variable {α β : Type} {n m k : Nat} {x : Reader α} {Q : α → Prop}

/-- Whether a reader that has at most `n` bytes ahead leaves at most `m`, with a result of some kind, or
complains about the format. -/
def Reads (n m : Nat) (x : Reader α) (Q : α → Prop) : Prop :=
  ∀ c : Cursor, c.remaining ≤ n →
    match x c with
    | .ok a c' => c'.remaining ≤ m ∧ Q a
    | .error e _ => e.IsFormat

theorem Reads.of_eq_ok (hx : Reads n m x Q) {c c' : Cursor} {a : α} (hc : c.remaining ≤ n)
    (h : x c = .ok a c') : c'.remaining ≤ m ∧ Q a := by
  have hread := hx c hc
  rwa [h] at hread

theorem Reads.of_eq_error (hx : Reads n m x Q) {c c' : Cursor} {e : Fault} (hc : c.remaining ≤ n)
    (h : x c = .error e c') : e.IsFormat := by
  have hread := hx c hc
  rwa [h] at hread

theorem Reads.mono {Q' : α → Prop} {m' : Nat} (hx : Reads n m x Q) (hm : m ≤ m') (hQ : ∀ a, Q a → Q' a) :
    Reads n m' x Q' := by
  intro c hc
  have hread := hx c hc
  split at hread
  · exact ⟨hread.1.trans hm, hQ _ hread.2⟩
  · exact hread

theorem Reads.bind {f : α → Reader β} {R : β → Prop} (hx : Reads n m x Q)
    (hf : ∀ a, Q a → Reads m k (f a) R) : Reads n k (x >>= f) R := by
  intro c hc
  change match EStateM.bind x f c with
    | .ok b c' => c'.remaining ≤ k ∧ R b
    | .error e _ => e.IsFormat
  unfold EStateM.bind
  rcases h : x c with ⟨a, c'⟩ | ⟨e, c'⟩
  · obtain ⟨hc', ha⟩ := hx.of_eq_ok hc h
    exact hf a ha c' hc'
  · exact hx.of_eq_error hc h

theorem reads_pure {a : α} (h : Q a) : Reads n n (pure a) Q := fun _ hc => ⟨hc, h⟩

theorem reads_malformed (detail : String) : Reads n m (malformed detail : Reader α) Q :=
  fun _ _ => ⟨detail, rfl⟩

theorem reads_ofExcept {o : Except Fault α} (h : FailsAs Fault.IsFormat o) :
    Reads n n (ofExcept o) fun _ => True := by
  cases o with
  | ok a => exact reads_pure trivial
  | error e => exact fun _ _ => h e rfl

theorem reads_ite {p : Prop} [Decidable p] {y : Reader α} (hx : p → Reads n m x Q)
    (hy : ¬ p → Reads n m y Q) : Reads n m (if p then x else y) Q := by
  split
  · exact hx ‹_›
  · exact hy ‹_›

theorem length_of_splitOnto {taken rest bs rest' : List UInt8}
    (h : splitOnto taken k rest = some (bs, rest')) :
    bs.length = taken.length + k ∧ rest'.length + k = rest.length := by
  induction k generalizing taken rest with
  | zero =>
    rw [splitOnto] at h
    cases h
    exact ⟨List.length_reverse, rfl⟩
  | succ k ih =>
    cases rest with
    | nil => cases h
    | cons b rest =>
      obtain ⟨hbs, hrest⟩ := ih h
      rw [List.length_cons] at hbs ⊢
      omega

theorem reads_bytes (k : Nat) : Reads n (n - k) (bytes k) fun bs => k ≤ n ∧ bs.length = k := by
  intro c hc
  unfold bytes
  cases h : splitOnto [] k c.rest with
  | none => exact ⟨_, rfl⟩
  | some p =>
    obtain ⟨hbs, hrest⟩ := length_of_splitOnto h
    rw [List.length_nil, Nat.zero_add] at hbs
    unfold Cursor.remaining at hc ⊢
    exact ⟨by dsimp only; omega, by omega, hbs⟩

theorem reads_u1 : Reads n (n - 1) u1 fun _ => True := by
  intro c hc
  unfold u1
  split
  next h =>
    split at h
    · next hrest =>
      cases h
      rw [Cursor.remaining, hrest, List.length_cons] at hc
      unfold Cursor.remaining
      exact ⟨by dsimp only; omega, trivial⟩
    · cases h
  next h =>
    split at h
    · cases h
    · cases h
      exact ⟨_, rfl⟩

theorem reads_u2 : Reads n (n - 2) u2 fun _ => 2 ≤ n := by
  intro c hc
  unfold u2
  split
  next h =>
    split at h
    · next hrest =>
      cases h
      rw [Cursor.remaining, hrest, List.length_cons, List.length_cons] at hc
      unfold Cursor.remaining
      exact ⟨by dsimp only; omega, by omega⟩
    · cases h
  next h =>
    split at h
    · cases h
    · cases h
      exact ⟨_, rfl⟩

/-- A number is read, and nothing more is said. -/
theorem reads_u2_within : Reads n n u2 fun _ => True := reads_u2.mono (Nat.sub_le ..) fun _ _ => trivial

theorem reads_bytes_within (k : Nat) : Reads n n (bytes k) fun _ => True :=
  (reads_bytes k).mono (Nat.sub_le ..) fun _ _ => trivial

theorem reads_u4 : Reads n n u4 fun _ => True := (reads_bytes_within 4).bind fun _ _ => reads_pure trivial

theorem reads_u8 : Reads n n u8 fun _ => True := (reads_bytes_within 8).bind fun _ _ => reads_pure trivial

theorem reads_i4 : Reads n n i4 fun _ => True := reads_u4.bind fun _ _ => reads_pure trivial

theorem reads_i8 : Reads n n i8 fun _ => True := reads_u8.bind fun _ _ => reads_pure trivial

theorem reads_sub (k : Nat) : Reads n n (sub k) fun inner => inner.remaining ≤ n := by
  refine ((reads_bytes k).mono (Nat.sub_le ..) fun _ => id).bind fun bs hbs => reads_pure ?_
  change bs.length ≤ n
  omega

theorem reads_within {inner : Cursor} (hx : Reads m k x Q) (hinner : inner.remaining ≤ m) :
    Reads n n (within inner x) fun _ => True := by
  intro c hc
  unfold within
  rcases h : x inner with ⟨a, left⟩ | ⟨e, left⟩
  · exact ⟨hc, trivial⟩
  · exact hx.of_eq_error hinner h

theorem reads_timesOnto (hx : Reads n n x fun _ => True) (read : List α) (count : Nat) :
    Reads n n (timesOnto x read count) fun _ => True := by
  induction count generalizing read with
  | zero => exact reads_pure trivial
  | succ count ih => exact hx.bind fun a _ => ih (a :: read)

theorem reads_counted (hx : Reads n n x fun _ => True) : Reads n n (counted x) fun _ => True :=
  reads_u2_within.bind fun count _ => reads_timesOnto hx [] count.toNat

end Reader

/-! ## Reading class files -/

open Reader

section

variable {n : Nat}

theorem reads_text (length : Nat) : Reads n n (readText length) fun _ => True := by
  refine (reads_bytes_within length).bind fun bs _ => ?_
  split
  · exact reads_pure trivial
  · exact reads_malformed _

theorem reads_constant (index : Nat) : Reads n n (readConstant index) fun _ => True := by
  have hone {f : UInt16 → Constant} : Reads n n (do return f (← u2)) fun _ => True :=
    reads_u2_within.bind fun _ _ => reads_pure trivial
  have htwo {f : UInt16 → UInt16 → Constant} : Reads n n (do return f (← u2) (← u2)) fun _ => True :=
    reads_u2_within.bind fun _ _ => reads_u2_within.bind fun _ _ => reads_pure trivial
  refine (reads_u1.mono (Nat.sub_le ..) fun _ => id).bind fun tag _ => ?_
  split
  · exact reads_u2_within.bind fun length _ => (reads_text _).bind fun _ _ => reads_pure trivial
  · exact reads_i4.bind fun _ _ => reads_pure trivial
  · exact reads_u4.bind fun _ _ => reads_pure trivial
  · exact reads_i8.bind fun _ _ => reads_pure trivial
  · exact reads_u8.bind fun _ _ => reads_pure trivial
  · exact hone
  · exact hone
  · exact htwo
  · exact htwo
  · exact htwo
  · exact htwo
  · refine (reads_u1.mono (Nat.sub_le ..) fun _ => id).bind fun kind _ => ?_
    exact reads_ite (fun _ => reads_malformed _) fun _ => hone
  · exact hone
  · exact htwo
  · exact reads_malformed _

theorem reads_constants (count : Nat) (entries : Array Constant) (fuel : Nat) :
    Reads n n (readConstants count entries fuel) fun _ => True := by
  induction fuel generalizing entries with
  | zero => exact reads_pure trivial
  | succ fuel ih =>
    refine reads_ite (fun _ => reads_pure trivial) fun _ => ?_
    refine (reads_constant _).bind fun c _ => reads_ite (fun _ => ?_) fun _ => ih _
    exact reads_ite (fun _ => reads_malformed _) fun _ => ih _

theorem reads_pool : Reads n n readPool fun _ => True := by
  refine reads_u2_within.bind fun count _ => reads_ite (fun _ => reads_malformed _) fun _ => ?_
  exact (reads_constants _ _ _).bind fun _ _ => reads_pure trivial

theorem reads_handler : Reads n n readHandler fun _ => True := by
  refine reads_u2_within.bind fun _ _ => reads_u2_within.bind fun _ _ => ?_
  exact reads_u2_within.bind fun _ _ => reads_u2_within.bind fun _ _ => reads_pure trivial

theorem reads_line : Reads n n readLine fun _ => True :=
  reads_u2_within.bind fun _ _ => reads_u2_within.bind fun _ _ => reads_pure trivial

theorem reads_body {nested : Reader (List NamedAttribute)} (hnested : Reads n n nested fun _ => True)
    (name : String) (length : Nat) : Reads n n (readBody nested name length) fun _ => True := by
  unfold readBody
  split
  · refine reads_u2_within.bind fun _ _ => reads_u2_within.bind fun _ _ => reads_u4.bind fun length _ => ?_
    refine reads_ite (fun _ => reads_malformed _) fun _ => (reads_bytes_within _).bind fun _ _ => ?_
    exact (reads_counted reads_handler).bind fun _ _ => hnested.bind fun _ _ => reads_pure trivial
  · exact reads_u2_within.bind fun _ _ => reads_pure trivial
  · exact (reads_counted reads_u2_within).bind fun _ _ => reads_pure trivial
  · exact reads_u2_within.bind fun _ _ => reads_pure trivial
  · exact (reads_counted reads_line).bind fun _ _ => reads_pure trivial
  · exact (reads_bytes_within _).bind fun _ _ => reads_pure trivial

/-- Where there are fewer bytes than the depth, the depth is never used up. -/
theorem reads_attributes (pool : ConstantPool) {depth : Nat} (hn : n < depth) :
    Reads n n (readAttributes pool depth) fun _ => True := by
  induction depth generalizing n with
  | zero => omega
  | succ depth ih =>
    refine reads_counted ((reads_u2.mono le_rfl fun _ => id).bind fun nameIndex htwo => ?_)
    refine Reads.mono (m := n - 2) ?_ (Nat.sub_le ..) fun _ => id
    -- the index of the name is before the bytes of the attribute
    have hdeep : n - 2 < depth := by omega
    refine reads_u4.bind fun length _ => (reads_ofExcept (pool.failsAs_utf8 _)).bind fun name _ => ?_
    refine (reads_sub _).bind fun inner hinner => ?_
    refine (reads_within (reads_body (ih hdeep) name _) hinner).bind fun p _ => ?_
    exact reads_ite (fun _ => reads_malformed _) fun _ => reads_pure trivial

theorem reads_member (pool : ConstantPool) {depth : Nat} (hn : n < depth) :
    Reads n n (readMember pool depth) fun _ => True := by
  refine reads_u2_within.bind fun _ _ => reads_u2_within.bind fun _ _ => reads_u2_within.bind fun _ _ => ?_
  exact (reads_attributes pool hn).bind fun _ _ => reads_pure trivial

theorem reads_class {depth : Nat} (hn : n < depth) : Reads n n (readClass depth) fun _ => True := by
  refine reads_u4.bind fun found _ => reads_ite (fun _ => reads_malformed _) fun _ => ?_
  refine reads_u2_within.bind fun minor _ => reads_u2_within.bind fun major _ => ?_
  refine reads_ite (fun _ => reads_malformed _) fun _ => reads_pool.bind fun pool _ => ?_
  refine reads_u2_within.bind fun _ _ => reads_u2_within.bind fun _ _ => reads_u2_within.bind fun _ _ => ?_
  refine (reads_counted reads_u2_within).bind fun _ _ => ?_
  refine (reads_counted (reads_member pool hn)).bind fun _ _ => ?_
  refine (reads_counted (reads_member pool hn)).bind fun _ _ => ?_
  refine (reads_attributes pool hn).bind fun _ _ => ?_
  have hleft : Reads n n (get : Reader Cursor) fun _ => True := fun _ hc => ⟨hc, trivial⟩
  exact hleft.bind fun left _ => reads_ite (fun _ => reads_malformed _) fun _ => reads_pure trivial

end

/-! ## Checking references -/

section

variable (pool : ConstantPool)

theorem failsAs_checkConstant (index : UInt16) (c : Constant) :
    FailsAs Fault.IsFormat (checkConstant pool index c) := by
  have hexpect (i : UInt16) (tag : UInt8) : FailsAs Fault.IsFormat (do
      let _ ← pool.expectTag i tag ("constant pool entry " ++ toString index)) :=
    (pool.failsAs_expectTag _ _ _).bind fun _ _ => failsAs_ok _
  have hboth (i j : UInt16) (tag tag' : UInt8) : FailsAs Fault.IsFormat (do
      let _ ← pool.expectTag i tag ("constant pool entry " ++ toString index)
      let _ ← pool.expectTag j tag' ("constant pool entry " ++ toString index)) :=
    (pool.failsAs_expectTag _ _ _).bind fun _ _ => hexpect j tag'
  unfold checkConstant
  split
  · exact hexpect _ _
  · exact hexpect _ _
  · exact (hexpect _ _).bind fun _ _ => hexpect _ _
  · exact (hexpect _ _).bind fun _ _ => hexpect _ _
  · exact (hexpect _ _).bind fun _ _ => hexpect _ _
  · exact (hexpect _ _).bind fun _ _ => hexpect _ _
  · exact hexpect _ _
  · exact (pool.failsAs_get _).bind fun _ _ =>
      failsAs_ite (fun _ => failsAs_format _) fun _ => failsAs_ok _
  · exact hexpect _ _
  · exact failsAs_ok _

theorem failsAs_checkMemberRef (index : UInt16) (c : Constant) :
    FailsAs Fault.IsFormat (checkMemberRef pool index c) := by
  unfold checkMemberRef
  split
  · exact (pool.failsAs_member _).bind fun _ _ => (failsAs_fieldType _).bind fun _ _ => failsAs_ok _
  · exact (pool.failsAs_member _).bind fun _ _ => (failsAs_methodType _).bind fun _ _ => failsAs_ok _
  · exact (pool.failsAs_member _).bind fun _ _ => (failsAs_methodType _).bind fun _ _ => failsAs_ok _
  · exact failsAs_ok _

mutual

theorem failsAs_checkBody (body : Attribute) : FailsAs Fault.IsFormat (checkBody pool body) := by
  have hexpect {i : UInt16} {tag : UInt8} {context : String} : FailsAs Fault.IsFormat (do
      let _ ← pool.expectTag i tag context) :=
    (pool.failsAs_expectTag _ _ _).bind fun _ _ => failsAs_ok _
  cases body with
  | constantValue index =>
    rw [checkBody]
    exact (pool.failsAs_get _).bind fun _ _ =>
      failsAs_ite (fun _ => failsAs_format _) fun _ => failsAs_ok _
  | exceptions classes =>
    rw [checkBody]
    exact failsAs_forM fun _ _ => hexpect
  | sourceFile index =>
    rw [checkBody]
    exact hexpect
  | code _ _ _ handlers attributes =>
    rw [checkBody]
    refine FailsAs.bind (failsAs_forM fun h _ => ?_) fun _ _ => failsAs_checkAttributes attributes
    exact failsAs_ite (fun _ => hexpect) fun _ => failsAs_ok _
  | lineNumbers lines =>
    rw [checkBody]
    exact failsAs_ok _
  | other bytes =>
    rw [checkBody]
    exact failsAs_ok _

theorem failsAs_checkAttribute (a : NamedAttribute) : FailsAs Fault.IsFormat (checkAttribute pool a) := by
  cases a with
  | mk name body =>
    rw [checkAttribute]
    exact (pool.failsAs_expectTag _ _ _).bind fun _ _ => failsAs_checkBody body

theorem failsAs_checkAttributes (attributes : List NamedAttribute) :
    FailsAs Fault.IsFormat (checkAttributes pool attributes) := by
  cases attributes with
  | nil =>
    rw [checkAttributes]
    exact failsAs_ok _
  | cons a rest =>
    rw [checkAttributes]
    exact (failsAs_checkAttribute a).bind fun _ _ => failsAs_checkAttributes rest

end

theorem failsAs_checkMembers {parse : String → Except Fault Unit} (hparse : ∀ d, FailsAs Fault.IsFormat (parse d))
    (duplicate : String → String → String) (members : List MemberInfo) (seen : List (String × String)) :
    FailsAs Fault.IsFormat (checkMembers pool parse duplicate seen members) := by
  induction members generalizing seen with
  | nil => exact failsAs_ok _
  | cons m rest ih =>
    refine (pool.failsAs_utf8 _).bind fun name _ => (pool.failsAs_utf8 _).bind fun descriptor _ => ?_
    refine (hparse descriptor).bind fun _ _ => failsAs_ite (fun _ => failsAs_format _) fun _ => ?_
    exact (failsAs_checkAttributes pool _).bind fun _ _ => ih _

end

theorem failsAs_checkReferences (c : ClassFile) : FailsAs Fault.IsFormat (checkReferences c) := by
  have hexpect {i : UInt16} {tag : UInt8} {context : String} : FailsAs Fault.IsFormat (do
      let _ ← c.pool.expectTag i tag context) :=
    (c.pool.failsAs_expectTag _ _ _).bind fun _ _ => failsAs_ok _
  refine FailsAs.bind (failsAs_forM fun _ _ => failsAs_checkConstant _ _ _) fun _ _ => ?_
  refine FailsAs.bind (failsAs_forM fun _ _ => failsAs_checkMemberRef _ _ _) fun _ _ => ?_
  refine (c.pool.failsAs_expectTag _ _ _).bind fun _ _ => ?_
  -- there may be no superclass, what is checked behind it is the same
  refine failsAs_ite (fun _ => (c.pool.failsAs_expectTag _ _ _).bind fun _ _ => ?_) fun _ => ?_
  all_goals
    refine FailsAs.bind (failsAs_forM fun _ _ => hexpect) fun _ _ => ?_
    refine FailsAs.bind (failsAs_checkMembers _ (fun d => ?_) _ _ _) fun _ _ => ?_
    · exact (failsAs_fieldType d).bind fun _ _ => failsAs_ok _
    refine FailsAs.bind (failsAs_checkMembers _ (fun d => ?_) _ _ _) fun _ _ => ?_
    · exact (failsAs_methodType d).bind fun _ _ => failsAs_ok _
    exact failsAs_checkAttributes _ _

/-- **Reading fails with complaints about the format** only, whatever the bytes are. -/
theorem isFormat_of_parse {bytes : List UInt8} {e : Fault} (h : parse bytes = .error e) : e.IsFormat := by
  have hread : Reads bytes.length bytes.length (readClass (bytes.length + 1)) fun _ => True :=
    reads_class (Nat.lt_succ_self _)
  unfold parse at h
  split at h
  · exact ((failsAs_checkReferences _).bind fun _ _ => failsAs_ok _) e h
  · next hrun =>
    cases h
    exact hread.of_eq_error le_rfl hrun

end ClassFile

end Jvm
