import Mathlib
import Jvm.Proofs.Linking.Building
import Jvm.Proofs.Linking.MethodTables

/-! # The slots of method tables

A class comes by its method table from its own declarations and from the tables of the classes right above
it. `ClassTable.Tabled` says how, and holds of every class of a built table (`ClassTable.Built.tabled`).
`slotted_after` reads off what the slots of the tables are. -/

namespace Jvm.Linking

open ClassFile

/-! ## Declared methods -/

/-- No two members that pass the check have one name and one descriptor, and none has those of a member
before them. -/
theorem pairwise_of_checkMembers {pool : ConstantPool} {parse : String → Except Fault Unit}
    {duplicate : String → String → String} :
    ∀ {members : List MemberInfo} {seen : List (String × String)},
      checkMembers pool parse duplicate seen members = .ok () →
        (∀ m ∈ members, ∀ n d, pool.utf8 m.name = .ok n → pool.utf8 m.descriptor = .ok d →
          (n, d) ∉ seen) ∧
        (members.Pairwise fun m m' => ¬ (pool.utf8 m.name = pool.utf8 m'.name ∧
          pool.utf8 m.descriptor = pool.utf8 m'.descriptor))
  | [], _, _ => ⟨fun m hm => (by cases hm), .nil⟩
  | m :: members, seen, h => by
    rw [checkMembers] at h
    obtain ⟨name, hname, h⟩ := Verification.exists_of_bind h
    obtain ⟨descriptor, hdescriptor, h⟩ := Verification.exists_of_bind h
    obtain ⟨-, -, h⟩ := Verification.exists_of_bind h
    obtain ⟨hseen, h⟩ := Verification.of_unless h
    obtain ⟨-, -, h⟩ := Verification.exists_of_bind h
    obtain ⟨hrest, hpair⟩ := pairwise_of_checkMembers h
    refine ⟨fun m' hm' n d hn hd => ?_, .cons (fun m' hm' hsame => ?_) hpair⟩
    · rcases List.mem_cons.1 hm' with rfl | hm'
      · cases hname.symm.trans hn
        cases hdescriptor.symm.trans hd
        simpa using hseen
      · exact fun hmem => hrest m' hm' n d hn hd (List.mem_cons_of_mem _ hmem)
    · exact hrest m' hm' name descriptor (hsame.1.symm.trans hname) (hsame.2.symm.trans hdescriptor)
        List.mem_cons_self

/-- No two methods of a class file have one name and one descriptor. -/
theorem pairwise_of_parse {bytes : List UInt8} {file : ClassFile} (h : parse bytes = .ok file) :
    file.methods.Pairwise fun m m' => ¬ (file.pool.utf8 m.name = file.pool.utf8 m'.name ∧
      file.pool.utf8 m.descriptor = file.pool.utf8 m'.descriptor) := by
  unfold parse at h
  split at h
  · next c _ _ =>
    obtain ⟨_, hcheck, h⟩ := Verification.exists_of_bind h
    cases h
    have hmethods : ∃ parse duplicate seen,
        checkMembers file.pool parse duplicate seen file.methods = .ok () := by
      unfold checkReferences at hcheck
      obtain ⟨-, -, hcheck⟩ := Verification.exists_of_bind hcheck
      obtain ⟨-, -, hcheck⟩ := Verification.exists_of_bind hcheck
      obtain ⟨-, -, hcheck⟩ := Verification.exists_of_bind hcheck
      dsimp only at hcheck
      split at hcheck
      · obtain ⟨-, -, hcheck⟩ := Verification.exists_of_bind hcheck
        obtain ⟨-, -, hcheck⟩ := Verification.exists_of_bind hcheck
        obtain ⟨-, -, hcheck⟩ := Verification.exists_of_bind hcheck
        obtain ⟨_, hmethods, -⟩ := Verification.exists_of_bind hcheck
        exact ⟨_, _, _, hmethods⟩
      · obtain ⟨-, -, hcheck⟩ := Verification.exists_of_bind hcheck
        obtain ⟨-, -, hcheck⟩ := Verification.exists_of_bind hcheck
        obtain ⟨_, hmethods, -⟩ := Verification.exists_of_bind hcheck
        exact ⟨_, _, _, hmethods⟩
    obtain ⟨_, _, _, hmethods⟩ := hmethods
    exact (pairwise_of_checkMembers hmethods).2
  · cases h

theorem pairwise_of_forall₂ {α β : Type} {R : α → β → Prop} {S : α → α → Prop} {T : β → β → Prop}
    (hST : ∀ a a' b b', R a b → R a' b' → S a a' → T b b') :
    ∀ {l : List α} {l' : List β}, List.Forall₂ R l l' → l.Pairwise S → l'.Pairwise T
  | _, _, .nil, _ => .nil
  | _, _, .cons (b := b) hab h, hpair => by
    obtain ⟨ha, hpair⟩ := List.pairwise_cons.1 hpair
    refine .cons (fun b' hb' => ?_) (pairwise_of_forall₂ hST h hpair)
    obtain ⟨i, hi⟩ := List.mem_iff_getElem?.1 hb'
    obtain ⟨a', ha', hab'⟩ := Bytecode.exists_of_forall₂ h hi
    exact hST _ _ _ _ hab hab' (ha a' (List.mem_of_getElem? ha'))

theorem names_of_verifyMethod {pool : ConstantPool} {className : String} {inInterface : Bool}
    {m : MemberInfo} {v : VerifiedMethod} (h : verifyMethod pool className inInterface m = .ok v) :
    pool.utf8 m.name = .ok v.name ∧ pool.utf8 m.descriptor = .ok v.descriptor := by
  unfold verifyMethod at h
  obtain ⟨name, hname, h⟩ := Verification.exists_of_bind h
  obtain ⟨descriptor, hdescriptor, h⟩ := Verification.exists_of_bind h
  obtain ⟨type, -, h⟩ := Verification.exists_of_bind h
  split at h
  · cases h
    exact ⟨hname, hdescriptor⟩
  · cases h

/-- Of methods of different names and descriptors one at most is selectable. -/
theorem selectable?_eq_some {methods : List Method} {m : Method} {n d : String}
    (hpair : methods.Pairwise fun m m' => ¬ m.Overrides m') :
    selectable? methods n d = some m ↔
      m ∈ methods ∧ m.isVirtual = true ∧ m.hasSignature n d = true := by
  constructor
  · intro h
    have hm := List.find?_some h
    rw [Bool.and_eq_true] at hm
    exact ⟨List.mem_of_find?_eq_some h, hm⟩
  · rintro ⟨hmem, hv, hname⟩
    induction hpair with
    | nil => cases hmem
    | @cons m' methods hm' _ ih =>
      rw [MethodLayout.selectable?_cons]
      rcases List.mem_cons.1 hmem with rfl | hmem
      · rw [if_pos (by rw [hv, hname]; rfl)]
      · rw [if_neg, ih hmem]
        rw [Bool.and_eq_true, Method.hasSignature_iff]
        rintro ⟨-, hname'⟩
        rw [Method.hasSignature_iff] at hname
        exact hm' m hmem ⟨hname'.1.trans hname.1.symm, hname'.2.trans hname.2.symm⟩

/-! ## What a class file links to -/

/-- Whether a class comes from a class file with some classes above it: it declares the methods of the
class file, which are laid out behind those of the superclass. -/
structure LinkedOver (id : ClassId) (superclass : Option (ClassId × LinkedClass))
    (interfaces : List (ClassId × LinkedClass)) (c : LinkedClass) : Prop where
  kind : c.kind = if c.isInterface then .interface else .ordinary
  extending : c.superclass = superclass.map (·.1)
  implementing : c.interfaces = interfaces.map (·.1)
  pairwise : c.methods.Pairwise fun m m' => ¬ m.Overrides m'
  declared : ∀ m ∈ c.methods, m.owner = id ∧ m.inInterface = c.isInterface ∧
    (m.slot = none ↔ m.isVirtual = false)
  laidOut : ∃ declared, MethodLayout.LaidOut id
    (if c.isInterface then .empty else (superclass.map (·.2.methodTable)).getD .empty) declared
    (interfaces.map (·.2)) ⟨c.methods.reverse, c.methodTable⟩

/-- The methods of a class file have different names or descriptors, and so has what they declare. -/
theorem pairwise_declare (id : ClassId) {name : String} {bytes : List UInt8} {file : ClassFile}
    {verified : List VerifiedMethod} (hparse : ClassFile.parse bytes = .ok file)
    (hverified : file.methods.mapM (verifyMethod file.pool name file.access.isInterface) = .ok verified) :
    (verified.map (·.declare id name file.access.isInterface)).Pairwise
      fun m m' => ¬ m.Overrides m' := by
  rw [List.pairwise_map]
  refine pairwise_of_forall₂ (fun m m' v v' hv hv' hmm hvv => hmm ?_)
    (Bytecode.forall₂_of_mapM hverified) (pairwise_of_parse hparse)
  obtain ⟨hname, hdescriptor⟩ := names_of_verifyMethod hv
  obtain ⟨hname', hdescriptor'⟩ := names_of_verifyMethod hv'
  rw [hname, hname', hdescriptor, hdescriptor']
  exact ⟨congrArg _ hvv.1, congrArg _ hvv.2⟩

theorem linkedOver_of_linkedClass {id : ClassId} {loader : Loader} {name : String}
    {bytes : List UInt8} {file : ClassFile} {superclass : Option (ClassId × LinkedClass)}
    {interfaces : List (ClassId × LinkedClass)} {c : LinkedClass} {statics : Array Value}
    (hparse : ClassFile.parse bytes = .ok file)
    (hsuper : ∀ s ∈ superclass, s.2.methodTable.Indexed)
    (hinterfaces : ∀ i ∈ interfaces, i.2.methodTable.Indexed)
    (h : linkedClass id loader name file superclass interfaces = .ok (c, statics)) :
    LinkedOver id superclass interfaces c := by
  unfold linkedClass at h
  obtain ⟨fields, -, h⟩ := Verification.exists_of_bind h
  obtain ⟨verified, hverified, h⟩ := Verification.exists_of_bind h
  obtain ⟨l, hl, h⟩ := Verification.exists_of_bind h
  have hkind : c.kind = if file.access.isInterface then .interface else .ordinary := by
    cases h
    rfl
  have hi : c.isInterface = file.access.isInterface := by
    rw [LinkedClass.isInterface, hkind]
    cases file.access.isInterface <;> rfl
  have hmethods : c.methods = l.methods.reverse := by
    cases h
    rfl
  have htable : c.methodTable = l.table := by
    cases h
    rfl
  have hpair := pairwise_declare id hparse hverified
  have hinherited : (if file.access.isInterface then .empty
      else (superclass.map (·.2.methodTable)).getD .empty : MethodTable).Indexed := by
    split
    · exact MethodTable.indexed_empty
    · cases superclass with
      | none => exact MethodTable.indexed_empty
      | some s => exact hsuper s rfl
  have hlaid := MethodLayout.laidOut_of_layOutMethods hinherited
    (fun m hm => by
      obtain ⟨v, -, rfl⟩ := List.mem_map.1 hm
      rfl) hpair
    (fun i hi => by
      obtain ⟨p, hp, rfl⟩ := List.mem_map.1 hi
      exact hinterfaces p hp) hl
  rw [← hi] at hkind hpair hlaid
  exact {
    kind := hkind
    extending := by
      cases h
      rfl
    implementing := by
      cases h
      rfl
    pairwise := by
      rw [hmethods]
      refine pairwise_of_forall₂ (fun m m' v v' hv hv' hmm hvv => hmm ?_) hlaid.placed hpair
      rw [hv.1, hv'.1] at hvv
      exact hvv
    declared := fun m hm => by
      rw [hmethods] at hm
      obtain ⟨i, hm⟩ := List.mem_iff_getElem?.1 hm
      obtain ⟨m₀, hm₀, hplaced, hslot⟩ := Bytecode.exists_of_forall₂ hlaid.placed hm
      obtain ⟨v, -, rfl⟩ := List.mem_map.1 (List.mem_of_getElem? hm₀)
      rw [hslot]
      rw [hplaced]
      exact ⟨rfl, rfl, Iff.rfl⟩
    laidOut := by
      rw [hmethods, List.reverse_reverse, htable]
      exact ⟨_, hlaid⟩ }

/-! ## What method tables keep -/

/-- The classes right above a class from whose method tables its own one is laid out, in order. -/
def LinkedClass.sources (c : LinkedClass) : List ClassId :=
  match c.kind with
  | .ordinary => c.superclass.toList ++ c.interfaces
  | .interface => c.interfaces
  | .array _ => c.superclass.toList

theorem settle_none (id : ClassId) (new : Option Method) : settle id none new = new := by
  cases new <;> rfl

/-- What a class declares itself does not give way. -/
theorem settle_own {id : ClassId} {m : Method} (hm : m.owner = id) (new : Option Method) :
    settle id (some m) new = some m := by
  cases new with
  | none => rfl
  | some m' => simp [settle, givesWay, hm]

theorem selectable?_reverse {methods : List Method}
    (hpair : methods.Pairwise fun m m' => ¬ m.Overrides m') (n d : String) :
    selectable? methods.reverse n d = selectable? methods n d := by
  have hreverse : methods.reverse.Pairwise fun m m' => ¬ m.Overrides m' :=
    List.pairwise_reverse.2 (hpair.imp fun h hmm => h ⟨hmm.1.symm, hmm.2.symm⟩)
  refine Option.ext fun m => ?_
  rw [selectable?_eq_some hreverse, selectable?_eq_some hpair, List.mem_reverse]

namespace ClassTable

variable {t t' : ClassTable} {id : ClassId} {c : LinkedClass} {n d : String}

/-- The method that a class declares and that calls of a name and a descriptor select by the receiver. -/
def declared? (t : ClassTable) (n d : String) (id : ClassId) : Option Method :=
  (t.class? id).bind fun c => selectable? c.methods n d

/-- The method that a call of a name and a descriptor selects for instances of a class. -/
def selected? (t : ClassTable) (n d : String) (id : ClassId) : Option Method :=
  (t.class? id).bind (·.virtual? n d)

theorem selected?_of_class? (h : t.class? id = some c) : t.selected? n d id = c.virtual? n d := by
  simp [selected?, h]

theorem declared?_of_class? (h : t.class? id = some c) :
    t.declared? n d id = selectable? c.methods n d := by
  simp [declared?, h]

/-- How a class comes by its method table. -/
structure Tabled (t : ClassTable) (id : ClassId) (c : LinkedClass) : Prop where
  indexed : c.methodTable.Indexed
  declared : ∀ m ∈ c.methods, m.owner = id ∧ m.inInterface = c.isInterface ∧
    (m.slot = none ↔ m.isVirtual = false)
  entered : ∀ m ∈ c.methods, ∀ s, m.slot = some s → c.vtable[s]? = some m
  sources : ∀ p ∈ c.sources, ∃ e, t.class? p = some e
  extending : ∀ s ∈ c.superclass, ∃ e, t.class? s = some e ∧
    (c.isArray = false → e.kind = .ordinary) ∧
    (c.isInterface = false → e.methodTable.Precedes c.methodTable)
  implementing : c.isArray = false → ∀ i ∈ c.interfaces, ∃ e, t.class? i = some e ∧
    e.isInterface = true
  -- What the class says about a name and a descriptor goes from its own methods over what the classes
  -- right above it say.
  selects : ∀ n d, c.virtual? n d =
    (c.sources.map (t.selected? n d)).foldl (settle id) (selectable? c.methods n d)

theorem Tabled.mono (h : t.Within t') (hc : t.Tabled id c) : t'.Tabled id c where
  indexed := hc.indexed
  declared := hc.declared
  entered := hc.entered
  sources p hp := by
    obtain ⟨e, he⟩ := hc.sources p hp
    exact ⟨e, h p e he⟩
  extending s hs := by
    obtain ⟨e, he, hrest⟩ := hc.extending s hs
    exact ⟨e, h s e he, hrest⟩
  implementing harray i hi := by
    obtain ⟨e, he, hinterface⟩ := hc.implementing harray i hi
    exact ⟨e, h i e he, hinterface⟩
  selects n d := by
    rw [hc.selects, List.map_congr_left]
    intro p hp
    obtain ⟨e, he⟩ := hc.sources p hp
    rw [selected?_of_class? he, selected?_of_class? (h p e he)]

/-- The object class lends its method table to array classes. -/
theorem tabled_arrayClass {loader : Loader} {name : String} {component : Component}
    {object cloneable serializable : ClassId} {o : LinkedClass} (ho : t.class? object = some o)
    (htabled : t.Tabled object o) :
    t.Tabled id (arrayClass loader name component object cloneable serializable o.methodTable) where
  indexed := htabled.indexed
  declared m hm := by cases hm
  entered m hm := by cases hm
  sources p hp := by
    obtain rfl : p = object := by simpa [LinkedClass.sources, arrayClass] using hp
    exact ⟨o, ho⟩
  extending s hs := by
    obtain rfl : object = s := Option.some.inj hs
    exact ⟨o, ho, (fun h => by cases h), fun _ => .refl _⟩
  implementing h := by cases h
  selects n d := by
    change o.virtual? n d = settle id none (t.selected? n d object)
    rw [settle_none, selected?_of_class? ho]

end ClassTable

/-- A class that is linked over classes of a table comes by its method table from them. -/
theorem LinkedOver.tabled {t : ClassTable} {id : ClassId} {c : LinkedClass}
    {superclass : Option (ClassId × LinkedClass)} {interfaces : List (ClassId × LinkedClass)}
    (hc : LinkedOver id superclass interfaces c)
    (hsuper : ∀ s ∈ superclass, t.class? s.1 = some s.2 ∧ s.2.kind = .ordinary)
    (hinterfaces : ∀ i ∈ interfaces, t.class? i.1 = some i.2 ∧ i.2.isInterface = true) :
    t.Tabled id c := by
  obtain ⟨declared, hl⟩ := hc.laidOut
  have harray : c.isArray = false := by
    rw [LinkedClass.isArray, LinkedClass.component?, hc.kind]
    cases c.isInterface <;> rfl
  have hsources : c.sources = (if c.isInterface then [] else c.superclass.toList) ++ c.interfaces := by
    rw [LinkedClass.sources, hc.kind]
    cases c.isInterface <;> rfl
  have hinterface : ∀ i ∈ c.interfaces, ∃ e, t.class? i = some e ∧ e.isInterface = true := by
    rw [hc.implementing]
    intro i hi
    obtain ⟨p, hp, rfl⟩ := List.mem_map.1 hi
    exact ⟨p.2, hinterfaces p hp⟩
  have hsuperclass : ∀ s ∈ c.superclass, ∃ e, (s, e) ∈ superclass := by
    rw [hc.extending]
    intro s hs
    obtain ⟨p, hp, rfl⟩ := Option.map_eq_some_iff.1 hs
    exact ⟨p.2, hp⟩
  exact {
    indexed := hl.indexed
    declared := hc.declared
    entered := fun m hm s hs =>
      hl.entered m (List.mem_reverse.2 hm) (hc.declared m hm).1 s hs
    sources := fun p hp => by
      rw [hsources] at hp
      rcases List.mem_append.1 hp with hp | hp
      · split at hp
        · cases hp
        · obtain ⟨e, he⟩ := hsuperclass p (Option.mem_toList.1 hp)
          exact ⟨e, (hsuper _ he).1⟩
      · obtain ⟨e, he, -⟩ := hinterface p hp
        exact ⟨e, he⟩
    extending := fun s hs => by
      obtain ⟨e, he⟩ := hsuperclass s hs
      refine ⟨e, (hsuper _ he).1, fun _ => (hsuper _ he).2, fun hi => ?_⟩
      have := hl.inherits
      rw [if_neg (by simp [hi])] at this
      cases he
      exact this
    implementing := fun _ => hinterface
    selects := fun n d => by
      have hmethod := hl.method? n d
      rw [selectable?_reverse hc.pairwise] at hmethod
      have hmap : (interfaces.map (·.2)).map (·.virtual? n d) =
          c.interfaces.map (t.selected? n d) := by
        rw [hc.implementing, List.map_map, List.map_map]
        refine List.map_congr_left fun p hp => ?_
        exact (ClassTable.selected?_of_class? (hinterfaces p hp).1).symm
      rw [hmap] at hmethod
      rw [LinkedClass.virtual?, hmethod, hsources, List.map_append, List.foldl_append]
      congr 1
      cases c.isInterface with
      | true => exact Option.or_none
      | false =>
        cases superclass with
        | none =>
          rw [hc.extending]
          exact Option.or_none
        | some s =>
          rw [hc.extending]
          change _ = settle id (selectable? c.methods n d) (t.selected? n d s.1)
          rw [ClassTable.selected?_of_class? (hsuper s rfl).1]
          cases hown : selectable? c.methods n d with
          | none => exact (settle_none _ _).symm
          | some m =>
            have hmem := ((selectable?_eq_some hc.pairwise).1 hown).1
            exact (settle_own (hc.declared m hmem).1 _).symm }

theorem kind_of_checkSuperclass {name superName : String} {isInterface : Bool} {s : LinkedClass}
    (h : checkSuperclass name superName isInterface s = .ok ()) : s.kind = .ordinary := by
  unfold checkSuperclass at h
  obtain ⟨hinterface, h⟩ := Verification.of_unless h
  obtain ⟨harray, -⟩ := Verification.of_unless h
  cases hkind : s.kind with
  | ordinary => rfl
  | interface => exact absurd (by simp [LinkedClass.isInterface, hkind]) hinterface
  | array component =>
    exact absurd (by simp [LinkedClass.isArray, LinkedClass.component?, hkind]) harray

namespace ClassTable

variable {t : ClassTable} {id : ClassId} {c : LinkedClass} {n d : String} {m : Method}

/-- Every class of a built table comes by its method table from the classes right above it. -/
theorem Built.tabled (ht : t.Built) : ∀ id c, t.class? id = some c → t.Tabled id c := by
  refine ht.forall (fun t t' id c h hc => hc.mono h) fun t c known _ ih hc =>
    Tabled.mono (within_push known) ?_
  cases hc with
  | file hparse _ hsuper hinterfaces hlinked =>
    have hover := linkedOver_of_linkedClass hparse
      (fun s hs => (ih s.1 s.2 (hsuper s hs).1).indexed)
      (fun i hi => (ih i.1 i.2 (hinterfaces i hi).1).indexed) hlinked
    refine hover.tabled (fun s hs => ?_) hinterfaces
    obtain ⟨hclass, superName, hcheck⟩ := hsuper s hs
    exact ⟨hclass, kind_of_checkSuperclass hcheck⟩
  | array hobject => exact tabled_arrayClass hobject (ih _ _ hobject)

/-- What the slots of a class's method table are. -/
structure Slots (t : ClassTable) (c : LinkedClass) : Prop where
  indexed : c.methodTable.Indexed
  -- The slots of the superclass of a class come first, with methods of the same names and
  -- descriptors.
  inherits : c.isInterface = false → ∀ s ∈ c.superclass, ∃ e, t.class? s = some e ∧
    e.methodTable.Precedes c.methodTable
  entered : ∀ m ∈ c.methods, ∀ s, m.slot = some s → c.vtable[s]? = some m
  unplaced : ∀ m ∈ c.methods, m.slot = none ↔
    m.isStatic = true ∨ m.isPrivate = true ∨ Method.isInitializerName m.name = true

/-- Whether the method tables of all classes have the slots that they should. -/
def Slotted (t : ClassTable) : Prop := ∀ id c, t.class? id = some c → t.Slots c

end ClassTable

/-- **The slots of method tables**: whatever is asked of a registry, the method table of every class has
one slot for a name and a descriptor, begins with the slots of the superclass, and holds the declared
methods in their slots. -/
theorem slotted_after (paths : ClassPaths) (requests : List Request) :
    (Registry.after paths requests).table.Slotted := by
  intro id c hc
  have h := (built_after paths requests).tabled id c hc
  refine ⟨h.indexed, fun hi s hs => ?_, h.entered, fun m hm => ?_⟩
  · obtain ⟨e, he, -, hprecedes⟩ := h.extending s hs
    exact ⟨e, he, hprecedes hi⟩
  · rw [(h.declared m hm).2.2, Method.isVirtual]
    cases m.isStatic <;> cases m.isPrivate <;> simp

end Jvm.Linking
