import Mathlib
import Jvm.Proofs.Linking.Sessions
import Jvm.Proofs.Linking.Specificity
import Jvm.Proofs.Linking.Entering
import Jvm.Proofs.Linking.Identity

/-! # Final methods

A class that would override a final method of a superclass is not linked. The check looks only at the
method that the table of the superclass has for the name and the descriptor (`Method.Breaks`). That is
enough: a final method stays in its slot, however many classes are between (`selected?_of_final`), since
none of them declares it anew and no superinterface takes its place. -/

namespace Jvm.Linking

open ClassFile

/-! ## Laying methods out -/

/-- Whether a declared method would override a final method of another class in a table. -/
structure Method.Breaks (inherited : MethodTable) (m old : Method) : Prop where
  isVirtual : m.isVirtual = true
  method? : inherited.method? m.name m.descriptor = some old
  owner : old.owner ≠ m.owner
  isFinal : old.isFinal = true

/-- The complaint about a method that overrides a final one. -/
def overrides (m old : Method) : Fault :=
  .linkage (m.text ++ " overrides final method in " ++ old.className)

namespace MethodLayout

variable {id : ClassId} {inherited : MethodTable} {declared rest : List Method} {l l' : MethodLayout}
  {m old : Method}

/-- A declared method meets what the table had before there were declared methods. -/
theorem LaidOut.method?_of_new (hl : LaidOut id inherited declared [] l)
    (hnew : ∀ m' ∈ declared, ¬ m'.Overrides m) :
    l.table.method? m.name m.descriptor = inherited.method? m.name m.descriptor := by
  have hnone : selectable? l.methods m.name m.descriptor = none := by
    refine List.find?_eq_none.2 fun m' hm' hname => ?_
    rw [Bool.and_eq_true, Method.hasSignature_iff] at hname
    obtain ⟨i, hi⟩ := List.mem_iff_getElem?.1 (List.mem_reverse.2 hm')
    obtain ⟨m₀, hm₀, hplaced, -⟩ := Bytecode.exists_of_forall₂ hl.placed hi
    refine hnew m₀ (List.mem_of_getElem? hm₀) ?_
    have hsame := hname.2
    rw [hplaced] at hsame
    exact hsame
  rw [hl.method?, hnone]
  rfl

/-- A declared method is refused if it would override a final one. -/
theorem add_of_breaks (hl : LaidOut id inherited declared [] l)
    (hnew : ∀ m' ∈ declared, ¬ m'.Overrides m) (h : m.Breaks inherited old) :
    l.add m = .error (overrides m old) := by
  have hold : l.table.method? m.name m.descriptor = some old := (hl.method?_of_new hnew).trans h.method?
  obtain ⟨s, hs, hget⟩ := Option.bind_eq_some_iff.1 hold
  have hfilter : l.table.methods[s]?.filter (fun o => o.owner != m.owner && o.isFinal) = some old := by
    rw [hget, Option.filter_some, if_pos (by simp [h.owner, h.isFinal])]
  rw [MethodLayout.add, if_pos h.isVirtual]
  simp only [hs, hfilter]
  rfl

/-- Another one is laid out. -/
theorem exists_add (hl : LaidOut id inherited declared [] l)
    (hnew : ∀ m' ∈ declared, ¬ m'.Overrides m) (h : ∀ old, ¬ m.Breaks inherited old) :
    ∃ l', l.add m = .ok l' := by
  unfold MethodLayout.add
  by_cases hv : m.isVirtual = true
  · rw [if_pos hv]
    cases hs : l.table.slot? m.name m.descriptor with
    | none => exact ⟨_, rfl⟩
    | some s =>
      dsimp only
      cases hfilter : l.table.methods[s]?.filter fun o => o.owner != m.owner && o.isFinal with
      | none => exact ⟨_, rfl⟩
      | some old =>
        obtain ⟨hget, hfinal⟩ := Option.filter_eq_some_iff.1 hfilter
        rw [Bool.and_eq_true, bne_iff_ne] at hfinal
        refine absurd ⟨hv, ?_, hfinal.1, hfinal.2⟩ (h old)
        rw [← hl.method?_of_new hnew, MethodTable.method?, hs]
        exact hget
  · rw [if_neg hv]
    exact ⟨_, rfl⟩

/-- The first declared method that would override a final one is complained about. -/
theorem foldlM_add_cases (hl : LaidOut id inherited declared [] l)
    (hslots : ∀ m ∈ rest, m.slot = none)
    (hpair : (declared ++ rest).Pairwise fun m m' => ¬ m.Overrides m') :
    (∃ l', rest.foldlM MethodLayout.add l = .ok l' ∧ ∀ m ∈ rest, ∀ old, ¬ m.Breaks inherited old) ∨
      ∃ m ∈ rest, ∃ old, m.Breaks inherited old ∧
        rest.foldlM MethodLayout.add l = .error (overrides m old) := by
  induction rest generalizing declared l with
  | nil => exact .inl ⟨l, rfl, fun m hm => by cases hm⟩
  | cons m rest ih =>
    have hnew : ∀ m' ∈ declared, ¬ m'.Overrides m :=
      fun m' hm' => (List.pairwise_append.1 hpair).2.2 m' hm' m List.mem_cons_self
    by_cases hbreaks : ∃ old, m.Breaks inherited old
    · obtain ⟨old, hbreaks⟩ := hbreaks
      refine .inr ⟨m, List.mem_cons_self, old, hbreaks, ?_⟩
      rw [List.foldlM_cons, add_of_breaks hl hnew hbreaks]
      rfl
    · have hfree := not_exists.1 hbreaks
      obtain ⟨l₁, hadd⟩ := exists_add hl hnew hfree
      have hl₁ := hl.add (hslots m List.mem_cons_self) hnew hadd
      rw [List.foldlM_cons, hadd]
      rcases ih hl₁ (fun m' hm' => hslots m' (List.mem_cons_of_mem _ hm')) (by simpa using hpair) with
        ⟨l', hfold, hrest⟩ | ⟨m', hm', old, hbreaks', hfold⟩
      · exact .inl ⟨l', hfold, List.forall_mem_cons.2 ⟨hfree, hrest⟩⟩
      · exact .inr ⟨m', List.mem_cons_of_mem _ hm', old, hbreaks', hfold⟩

end MethodLayout

/-! ## Linking a class file -/

section

variable {id : ClassId} {loader : Loader} {name : String} {bytes : List UInt8} {file : ClassFile}
  {superclass : Option (ClassId × LinkedClass)} {interfaces : List (ClassId × LinkedClass)}
  {fields : FieldLayout} {verified : List VerifiedMethod}

/-- The methods that a class file declares for the class numbered `id`. -/
def declaredMethods (id : ClassId) (name : String) (file : ClassFile) (verified : List VerifiedMethod) :
    List Method :=
  verified.map (·.declare id name file.access.isInterface)

/-- The method table that the methods of a class file are laid out behind; an interface has one of its
own. -/
def inheritedMethods (file : ClassFile) (superclass : Option (ClassId × LinkedClass)) : MethodTable :=
  if file.access.isInterface then .empty else (superclass.map (·.2.methodTable)).getD .empty

/-- What a class file is linked to over some classes. -/
structure LinkedFrom (id : ClassId) (name : String) (file : ClassFile)
    (superclass : Option (ClassId × LinkedClass)) (interfaces : List (ClassId × LinkedClass))
    (verified : List VerifiedMethod) (c : LinkedClass) : Prop where
  kind : c.kind = if file.access.isInterface then .interface else .ordinary
  extending : c.superclass = superclass.map (·.1)
  implementing : c.interfaces = interfaces.map (·.1)
  methods : List.Forall₂ Method.Placed (declaredMethods id name file verified) c.methods
  free : ∀ m ∈ declaredMethods id name file verified, ∀ old,
    ¬ m.Breaks (inheritedMethods file superclass) old

theorem LinkedFrom.parents {c : LinkedClass}
    (h : LinkedFrom id name file superclass interfaces verified c) :
    c.parents = (superclass.map (·.1)).toList ++ interfaces.map (·.1) := by
  rw [LinkedClass.parents, h.kind, h.extending, h.implementing]
  cases file.access.isInterface <;> exact List.append_nil _

theorem Method.Placed.breaks {m m' old : Method} {inherited : MethodTable} (h : m.Placed m')
    (hbreaks : m'.Breaks inherited old) : m.Breaks inherited old := by
  obtain ⟨hv, hmethod, howner, hfinal⟩ := hbreaks
  rw [h.1] at hv hmethod howner
  exact ⟨hv, hmethod, howner, hfinal⟩

/-- A class file whose fields and methods are in order is linked, unless one of the methods would override
a final one. -/
theorem linkedClass_cases (id : ClassId) (loader : Loader) (interfaces : List (ClassId × LinkedClass))
    (hparse : ClassFile.parse bytes = .ok file)
    (hinherited : (inheritedMethods file superclass).Indexed)
    (hfields : layOutFields file.pool ((superclass.map (·.2.template)).getD #[]) file.fields = .ok fields)
    (hverified : file.methods.mapM (verifyMethod file.pool name file.access.isInterface) = .ok verified) :
    (∃ c statics, linkedClass id loader name file superclass interfaces = .ok (c, statics) ∧
        LinkedFrom id name file superclass interfaces verified c) ∨
      ∃ m ∈ declaredMethods id name file verified, ∃ old, m.Breaks (inheritedMethods file superclass) old ∧
        linkedClass id loader name file superclass interfaces = .error (overrides m old) := by
  have hslots : ∀ m ∈ declaredMethods id name file verified, m.slot = none := by
    intro m hm
    obtain ⟨v, -, rfl⟩ := List.mem_map.1 hm
    rfl
  have hpair : ([] ++ declaredMethods id name file verified).Pairwise
      fun m m' : Method => ¬ m.Overrides m' :=
    pairwise_declare id hparse hverified
  have hlaid : MethodLayout.LaidOut id (inheritedMethods file superclass) [] []
      ⟨[], inheritedMethods file superclass⟩ := MethodLayout.laidOut_nil hinherited
  have hlinked : linkedClass id loader name file superclass interfaces = (do
      let methods ← layOutMethods id (inheritedMethods file superclass)
        (declaredMethods id name file verified) (interfaces.map (·.2))
      return ({
        name, loader
        access := if file.access.isInterface then file.access.with_ abstractMask else file.access
        kind := if file.access.isInterface then .interface else .ordinary
        superclass := superclass.map (·.1)
        interfaces := interfaces.map (·.1)
        fields := fields.fields.reverse
        template := fields.template
        methods := methods.methods.reverse
        methodTable := methods.table
        pool := file.pool
        source := file.sourceFile? }, fields.statics)) := by
    simp only [linkedClass, hfields, hverified]
    rfl
  rcases MethodLayout.foldlM_add_cases hlaid hslots hpair with
    ⟨l, hfold, hfree⟩ | ⟨m, hm, old, hbreaks, hfold⟩
  · have hplaced : List.Forall₂ Method.Placed (declaredMethods id name file verified) l.methods.reverse :=
      (MethodLayout.LaidOut.foldlM hlaid hslots hpair hfold).placed
    exact .inl ⟨_, _, by rw [hlinked, layOutMethods, hfold]; rfl, rfl, rfl, rfl, hplaced, hfree⟩
  · exact .inr ⟨m, hm, old, hbreaks, by rw [hlinked, layOutMethods, hfold]; rfl⟩

/-- The table that methods are laid out behind says what the superclass says. -/
theorem method?_inheritedMethods {n d : String} {m : Method} (hi : file.access.isInterface = false) :
    (inheritedMethods file superclass).method? n d = some m ↔
      ∃ s ∈ superclass, s.2.virtual? n d = some m := by
  rw [inheritedMethods, hi]
  cases superclass with
  | none => simp [MethodTable.method?, MethodTable.slot?, MethodTable.empty, MethodIndex.slot?]
  | some s => simp [LinkedClass.virtual?]

theorem indexed_inheritedMethods (file : ClassFile) (h : ∀ s ∈ superclass, s.2.methodTable.Indexed) :
    (inheritedMethods file superclass).Indexed := by
  unfold inheritedMethods
  split
  · exact MethodTable.indexed_empty
  · cases superclass with
    | none => exact MethodTable.indexed_empty
    | some s => exact h s rfl

end

/-! ## Final methods stay -/

namespace ClassTable

variable {t t' : ClassTable} {id : ClassId} {c : LinkedClass} {n d : String} {m old : Method}

/-- Whether a class that is no interface declares no method that its superclass has a final one for. -/
def Respects (t : ClassTable) (c : LinkedClass) : Prop :=
  c.isInterface = false → ∀ s ∈ c.superclass, ∀ m ∈ c.methods, m.isVirtual = true →
    ∀ old, t.selected? m.name m.descriptor s = some old → old.isFinal = false

/-- The method that a class selects is of a class of the table. -/
theorem owner_lt_of_selected? (ht : ∀ id c, t.class? id = some c → t.Tabled id c)
    (h : t.selected? n d id = some m) : m.owner < t.size := by
  obtain ⟨hdeclared, -⟩ := (obtains_of_selected? ht h).owner ht
  obtain ⟨c, hc, -⟩ := Option.bind_eq_some_iff.1 hdeclared
  exact lt_of_class? hc

theorem Respects.mono (h : t.Within t') (hknown : ∀ s ∈ c.superclass, ∃ e, t.class? s = some e)
    (hc : t.Respects c) : t'.Respects c := by
  intro hi s hs m hm hv old hold
  obtain ⟨e, he⟩ := hknown s hs
  refine hc hi s hs m hm hv old ?_
  rw [selected?_of_class? he, ← selected?_of_class? (h s e he)]
  exact hold

/-- A class file is linked to a class that declares no such method. -/
theorem respects_of_linkedClass {loader : Loader} {name : String} {bytes : List UInt8} {file : ClassFile}
    {superclass : Option (ClassId × LinkedClass)} {interfaces : List (ClassId × LinkedClass)}
    {statics : Array Value} (ht : ∀ id c, t.class? id = some c → t.Tabled id c)
    (hparse : ClassFile.parse bytes = .ok file) (hsuper : ∀ s ∈ superclass, t.class? s.1 = some s.2)
    (hlinked : linkedClass t.size loader name file superclass interfaces = .ok (c, statics)) :
    t.Respects c := by
  obtain ⟨fields, hfields, h⟩ := Verification.exists_of_bind hlinked
  obtain ⟨verified, hverified, -⟩ := Verification.exists_of_bind h
  have hindexed := indexed_inheritedMethods file fun s hs => (ht s.1 s.2 (hsuper s hs)).indexed
  rcases linkedClass_cases t.size loader interfaces hparse hindexed hfields hverified with
    ⟨c', _, heq, hfrom⟩ | ⟨m, _, old, _, heq⟩
  · cases hlinked.symm.trans heq
    intro hi s hs m hm hv old hold
    have hplain : file.access.isInterface = false := by
      rw [LinkedClass.isInterface, hfrom.kind] at hi
      cases hfile : file.access.isInterface
      · rfl
      · rw [hfile] at hi
        cases hi
    rw [hfrom.extending] at hs
    obtain ⟨p, hp, rfl⟩ := Option.map_eq_some_iff.1 hs
    obtain ⟨i, hi⟩ := List.mem_iff_getElem?.1 hm
    obtain ⟨m₀, hm₀, hplaced⟩ := Bytecode.exists_of_forall₂ hfrom.methods hi
    by_contra hfinal
    refine hfrom.free m₀ (List.mem_of_getElem? hm₀) old (hplaced.breaks ⟨hv, ?_, ?_, by simpa using hfinal⟩)
    · rw [selected?_of_class? (hsuper p hp)] at hold
      exact (method?_inheritedMethods hplain).2 ⟨p, hp, hold⟩
    · have howner : m.owner = t.size := by
        obtain ⟨v, -, rfl⟩ := List.mem_map.1 (List.mem_of_getElem? hm₀)
        rw [hplaced.1]
        rfl
      rw [howner]
      exact (owner_lt_of_selected? ht hold).ne
  · cases hlinked.symm.trans heq

theorem Built.respects (ht : t.Built) : ∀ id c, t.class? id = some c → t.Respects c := by
  have hboth : ∀ id c, t.class? id = some c →
      (∀ s ∈ c.superclass, ∃ e, t.class? s = some e) ∧ t.Respects c := by
    refine Built.forall (P := fun t _ c => (∀ s ∈ c.superclass, ∃ e, t.class? s = some e) ∧ t.Respects c)
      (fun t t' id c h hc => ⟨fun s hs => ?_, hc.2.mono h hc.1⟩) (fun t c known hb _ hc => ?_) ht
    · obtain ⟨e, he⟩ := hc.1 s hs
      exact ⟨e, h s e he⟩
    · have hknown : ∀ s ∈ c.superclass, ∃ e, t.class? s = some e := fun s hs => class?_of_lt <|
        known s (List.mem_append_left _ (List.mem_append_left _ (Option.mem_toList.2 hs)))
      refine ⟨fun s hs => ?_, Respects.mono (within_push known) hknown ?_⟩
      · obtain ⟨e, he⟩ := hknown s hs
        exact ⟨e, within_push known s e he⟩
      · cases hc with
        | file hparse _ hsuper _ hlinked =>
          exact respects_of_linkedClass hb.tabled hparse (fun s hs => (hsuper s hs).1) hlinked
        | array =>
          intro _ _ _ m hm
          cases hm
  exact fun id c hc => (hboth id c hc).2

/-- Array classes declare no methods. -/
theorem Built.methods_of_isArray (ht : t.Built) : ∀ id c, t.class? id = some c → c.isArray = true →
    c.methods = [] := by
  refine Built.forall (P := fun _ _ c => c.isArray = true → c.methods = []) (fun _ _ _ _ _ h => h)
    (fun t c known _ _ hc => ?_) ht
  cases hc with
  | file _ _ _ _ hlinked =>
    intro harray
    rw [isArray_of_linkedClass hlinked] at harray
    cases harray
  | array => exact fun _ => rfl

/-- A declared method that calls select by the receiver is the one that the class declares for its name and
descriptor. -/
theorem Tabled.declared? (htabled : t.Tabled id c) (hc : t.class? id = some c) (hm : m ∈ c.methods)
    (hv : m.isVirtual = true) : t.declared? m.name m.descriptor id = some m := by
  have hslot : ∀ m ∈ c.methods, m.isVirtual = true → ∃ s, m.slot = some s ∧ c.vtable[s]? = some m := by
    intro m hm hv
    obtain ⟨s, hs⟩ := Option.ne_none_iff_exists'.1 fun hnone => by
      rw [((htabled.declared m hm).2.2).1 hnone] at hv
      cases hv
    exact ⟨s, hs, htabled.entered m hm s hs⟩
  rw [declared?_of_class? hc]
  cases hfind : selectable? c.methods m.name m.descriptor with
  | none =>
    have := List.find?_eq_none.1 hfind m hm
    simp [hv, Method.hasSignature] at this
  | some m' =>
    have hname := List.find?_some hfind
    rw [Bool.and_eq_true, Method.hasSignature_iff] at hname
    obtain ⟨s, -, hs⟩ := hslot m hm hv
    obtain ⟨s', -, hs'⟩ := hslot m' (List.mem_of_find?_eq_some hfind) hname.1
    -- the two are in the one slot of their name and descriptor
    obtain rfl := htabled.indexed.slot_eq hs' hs hname.2
    exact hs'.symm.trans hs

/-- A final method is what every class below says: none of those between declares it anew. -/
theorem Built.selected?_of_final (ht : t.Built) (hc : t.class? id = some c) (hkind : c.kind = .ordinary)
    {b : ClassId} (hb : b ∈ t.chain id) (hold : t.declared? n d b = some old)
    (hfinal : old.isFinal = true) : t.selected? n d id = some old := by
  suffices h : (t.chain id).findSome? (t.declared? n d) = some old from
    selected?_of_chain ht.tabled hc hkind h
  induction id using Nat.strongRecOn generalizing c with
  | ind id ih =>
    rw [chain, List.findSome?_cons]
    rcases mem_chain.1 hb with rfl | ⟨s, hs, hbs⟩
    · rw [hold]
    · have hsuper := (superOf?_of_class? hc).symm.trans hs
      obtain ⟨e, he, hordinary, -⟩ := (ht.tabled id c hc).extending s hsuper
      have hkinds := hordinary (isArray_of_ordinary hkind)
      have hrest := ih s (superOf?_lt hs) he hkinds hbs
      have hnone : t.declared? n d id = none := by
        cases hown : t.declared? n d id with
        | none => rfl
        | some m =>
          rw [declared?_of_class? hc] at hown
          have hname := List.find?_some hown
          rw [Bool.and_eq_true, Method.hasSignature_iff] at hname
          obtain ⟨hv, rfl, rfl⟩ := hname
          have hselected := selected?_of_chain ht.tabled he hkinds hrest
          rw [ht.respects id c hc (by rw [LinkedClass.isInterface, hkind]; rfl) s hsuper m
            (List.mem_of_find?_eq_some hown) hv old hselected] at hfinal
          cases hfinal
      rw [hnone]
      dsimp only
      split
      · next s' hs' =>
        obtain rfl := Option.some.inj (hs.symm.trans hs')
        exact hrest
      · next hnone' => rw [hs] at hnone'; cases hnone'

end ClassTable

/-! ## Requests for a class -/

/-- The registry in which a loader goes to work itself on a request: the program's loader asks that of the
core classes first. -/
def Registry.asked (paths : ClassPaths) (loader : Loader) (name : String) (r : Registry) : Registry :=
  match loader with
  | .boot => r
  | .app => (loadClass paths .boot name).leads r

/-- Whether a loader that goes to work on a class file has everything in order, apart from the overriding of
methods: the classes that it is linked over, its fields and its methods. -/
structure ClassPaths.Linkable (paths : ClassPaths) (loader : Loader) (name : String) (file : ClassFile)
    (superclass : Option (ClassId × LinkedClass)) (interfaces : List (ClassId × LinkedClass))
    (verified : List VerifiedMethod) (r r₁ : Registry) : Prop where
  unasked : r.loaded[(loader, name)]? = none
  missing : loader = .app → ∃ text, r.loaded[(Loader.boot, name)]? = some (.error (.classNotFound text))
  plain : isArrayName name = false
  found : ∃ bytes, (paths.ofLoader loader).find name = .ok (some bytes) ∧ ClassFile.parse bytes = .ok file
  named : file.name = .ok name
  above : linkAbove (load paths [(loader, name)] loader) name file r = .ok (superclass, interfaces) r₁
  fields : ∃ fields, layOutFields file.pool ((superclass.map (·.2.template)).getD #[]) file.fields =
    .ok fields
  methods : file.methods.mapM (verifyMethod file.pool name file.access.isInterface) = .ok verified

section

variable {paths : ClassPaths} {loader : Loader} {name : String} {file : ClassFile}
  {superclass : Option (ClassId × LinkedClass)} {interfaces : List (ClassId × LinkedClass)}
  {verified : List VerifiedMethod} {r r₁ : Registry}

/-- A loader that goes to work on a class file links it over the classes above. -/
theorem ClassPaths.Linkable.loadClass_eq
    (h : paths.Linkable loader name file superclass interfaces verified (r.asked paths loader name) r₁) :
    loadClass paths loader name r = Linker.recorded (loader, name)
      (link (load paths [(loader, name)] loader) loader name file) (r.asked paths loader name) := by
  obtain ⟨bytes, hfind, hparse⟩ := h.found
  have hfile : defineBy paths (load paths [(loader, name)]) loader name =
      link (load paths [(loader, name)] loader) loader name file := by
    rw [defineBy_of_file h.plain, hfind]
    change Linker.ofExcept (ClassFile.parse bytes) >>= _ = _
    rw [hparse]
    rfl
  refine Eq.trans ?_ ((define_of_fresh h.unasked List.not_mem_nil).trans (by rw [hfile]))
  cases loader with
  | boot =>
    rw [loadClass, load]
    rfl
  | app =>
    obtain ⟨text, hmissing⟩ := h.missing rfl
    rw [loadClass, load]
    rcases hboot : define paths [] .boot name r with ⟨id, r'⟩ | ⟨e, r'⟩
    all_goals
      have hasked : r.asked paths .app name = r' := by
        rw [Registry.asked, loadClass, load, Linker.leads, hboot]
      have hloaded := loaded_of_define (show Linker.attempt (define paths [] .boot name) r = _ by
        rw [Linker.attempt, hboot])
      rw [hasked] at hmissing
      cases hloaded.symm.trans hmissing
    rw [tryCatch_of_error hboot, hasked]

/-- The classes that a class file is linked over are there, and fit. -/
theorem ClassPaths.Linkable.meets
    (h : paths.Linkable loader name file superclass interfaces verified r r₁) :
    r.LinksTo r₁ ∧ (∀ s ∈ superclass, r₁.table.class? s.1 = some s.2 ∧
        ∃ superName, checkSuperclass name superName file.access.isInterface s.2 = .ok ()) ∧
      ∀ i ∈ interfaces, r₁.table.class? i.1 = some i.2 ∧ i.2.isInterface = true :=
  (meets_linkAbove_builds (fun n r => builds_load paths [(loader, name)] loader n r) name file).of_eq_ok
    h.above

theorem ClassPaths.Linkable.built
    (h : paths.Linkable loader name file superclass interfaces verified r r₁) (hr : r.table.Built) :
    r₁.table.Built :=
  h.meets.1.buildsOn.built hr

/-- What is in order is linked, unless a method would override a final one. -/
theorem ClassPaths.Linkable.link_cases
    (h : paths.Linkable loader name file superclass interfaces verified r r₁) (hr : r.table.Built) :
    (∃ c r', LinkedFrom r₁.table.size name file superclass interfaces verified c ∧
        link (load paths [(loader, name)] loader) loader name file r = .ok r₁.table.size r' ∧
        r'.table.class? r₁.table.size = some c) ∨
      ∃ m ∈ declaredMethods r₁.table.size name file verified, ∃ old,
        m.Breaks (inheritedMethods file superclass) old ∧
        link (load paths [(loader, name)] loader) loader name file r = .error (overrides m old) r₁ := by
  obtain ⟨-, hsuper, hinterfaces⟩ := h.meets
  obtain ⟨bytes, -, hparse⟩ := h.found
  obtain ⟨fields, hfields⟩ := h.fields
  have hindexed := indexed_inheritedMethods file fun s hs =>
    ((h.built hr).tabled s.1 s.2 (hsuper s hs).1).indexed
  rw [link_eq h.named, bind_of_ok h.above, bind_of_ok (get_eq r₁)]
  rcases linkedClass_cases r₁.table.size loader interfaces hparse hindexed hfields
    h.methods with ⟨c, statics, hlinked, hfrom⟩ | ⟨m, hm, old, hbreaks, hlinked⟩
  · have hknown : ∀ p ∈ c.parents, p < r₁.table.size := by
      rw [hfrom.parents]
      intro p hp
      rcases List.mem_append.1 hp with hp | hp
      · obtain ⟨s, hs, rfl⟩ := Option.map_eq_some_iff.1 (Option.mem_toList.1 hp)
        exact ClassTable.lt_of_class? (hsuper s hs).1
      · obtain ⟨i, hi, rfl⟩ := List.mem_map.1 hp
        exact ClassTable.lt_of_class? (hinterfaces i hi).1
    have hpublish := Linker.publish_of_known .linked statics hknown
    have hclass : (r₁.table.push c hknown).class? r₁.table.size = some c :=
      (ClassTable.class?_push hknown _).trans (if_pos rfl)
    rw [hlinked, bind_of_ok (ofExcept_ok _ r₁)]
    exact .inl ⟨c, _, hfrom, hpublish, hclass⟩
  · refine .inr ⟨m, hm, old, hbreaks, ?_⟩
    rw [hlinked]
    rfl

end

/-! ## Final methods are never overridden -/

namespace ClassTable

/-- Whether a declared method would override a final method that a class, or one above it, declares. -/
structure Offends (t : ClassTable) (s : ClassId) (m old : Method) : Prop where
  isVirtual : m.isVirtual = true
  declared : ∃ b ∈ t.chain s, ∃ e, t.class? b = some e ∧ old ∈ e.methods
  selectable : old.isVirtual = true
  isFinal : old.isFinal = true
  same : old.Overrides m

variable {t : ClassTable} {s : ClassId} {c e : LinkedClass} {m old : Method}

/-- Such a method is the one that calls on the class select. -/
theorem Offends.selected? (ht : t.Built) (hs : t.class? s = some e) (hkind : e.kind = .ordinary)
    (h : t.Offends s m old) : t.selected? m.name m.descriptor s = some old := by
  obtain ⟨b, hb, f, hf, hmem⟩ := h.declared
  have hdeclared := (ht.tabled b f hf).declared? hf hmem h.selectable
  have hselected := ht.selected?_of_final hs hkind hb hdeclared h.isFinal
  rwa [h.same.1, h.same.2] at hselected

/-- No class that is no interface declares a method that offends. -/
theorem Built.not_offends (ht : t.Built) {id : ClassId} (hc : t.class? id = some c)
    (hi : c.isInterface = false) (hs : s ∈ c.superclass) (hm : m ∈ c.methods) : ¬ t.Offends s m old := by
  intro h
  obtain ⟨e, he, hordinary, -⟩ := (ht.tabled id c hc).extending s hs
  cases harray : c.isArray with
  | true =>
    rw [ht.methods_of_isArray id c hc harray] at hm
    cases hm
  | false =>
    have hselected := h.selected? ht he (hordinary harray)
    have := ht.respects id c hc hi s hs m hm h.isVirtual old hselected
    rw [h.isFinal] at this
    cases this

end ClassTable

/-- What becomes of final methods, whatever is asked of a registry. -/
structure ClassPaths.KeepsFinals (paths : ClassPaths) : Prop where
  -- No class that is no interface has a method with the name and descriptor of a final method of a
  -- superclass, as far as calls select the two by the receiver.
  never : ∀ requests id c, (Registry.after paths requests).table.class? id = some c →
    c.isInterface = false → ∀ b ∈ (Registry.after paths requests).table.chain id, b ≠ id →
      ∀ e, (Registry.after paths requests).table.class? b = some e →
        ∀ m ∈ c.methods, ∀ old ∈ e.methods, m.isVirtual = true → old.isVirtual = true →
          old.Overrides m → old.isFinal = false
  -- A class file that would have one, and is in order otherwise, is refused: nothing is entered but the
  -- classes above it. As long as there is no teardown the class is never there, and every request comes to
  -- the same.
  refused : ∀ requests loader name file superclass interfaces verified r₁,
    paths.Linkable loader name file superclass interfaces verified
      ((Registry.after paths requests).asked paths loader name) r₁ →
    file.access.isInterface = false →
    (∃ s ∈ superclass, ∃ m ∈ declaredMethods r₁.table.size name file verified, ∃ old,
      r₁.table.Offends s.1 m old) →
    ∃ m ∈ declaredMethods r₁.table.size name file verified, ∃ old,
      m.Breaks (inheritedMethods file superclass) old ∧
      (∃ r', loadClass paths loader name (Registry.after paths requests) =
        .error (overrides m old) r' ∧ r'.table = r₁.table ∧ r'.found? loader name = none) ∧
      ∀ later, (∀ held, .teardown held ∉ requests) → (∀ held, .teardown held ∉ later) →
        ∀ t, t = Registry.after paths (requests ++ .load loader name :: later) →
          loadClass paths loader name t = .error (overrides m old) t ∧
          ∀ id d, t.table.class? id = some d → ¬ (d.loader = loader ∧ d.name = name)
  -- Another class file that is in order otherwise is linked. Static and private methods do not count, nor
  -- do initializers and the methods of interfaces.
  accepted : ∀ requests loader name file superclass interfaces verified r₁,
    paths.Linkable loader name file superclass interfaces verified
      ((Registry.after paths requests).asked paths loader name) r₁ →
    (file.access.isInterface = false → ∀ s ∈ superclass,
      ∀ m ∈ declaredMethods r₁.table.size name file verified, m.isVirtual = true →
        ∀ old, r₁.table.selected? m.name m.descriptor s.1 = some old → old.isFinal = false) →
    ∃ id r' c, loadClass paths loader name (Registry.after paths requests) = .ok id r' ∧
      r'.table.class? id = some c ∧
      List.Forall₂ Method.Placed (declaredMethods id name file verified) c.methods

section

variable {paths : ClassPaths} {loader : Loader} {name : String} {file : ClassFile}
  {superclass : Option (ClassId × LinkedClass)} {interfaces : List (ClassId × LinkedClass)}
  {verified : List VerifiedMethod} {r r₁ : Registry} {m old : Method}

theorem owner_of_declaredMethods {id : ClassId} (hm : m ∈ declaredMethods id name file verified) :
    m.owner = id := by
  obtain ⟨v, -, rfl⟩ := List.mem_map.1 hm
  rfl

/-- A method of a class file that offends would override the final method in the table of the superclass. -/
theorem ClassPaths.Linkable.breaks
    (h : paths.Linkable loader name file superclass interfaces verified r r₁) (hr : r.table.Built)
    (hi : file.access.isInterface = false) {s : ClassId × LinkedClass} (hs : s ∈ superclass)
    (hm : m ∈ declaredMethods r₁.table.size name file verified) (ho : r₁.table.Offends s.1 m old) :
    m.Breaks (inheritedMethods file superclass) old := by
  obtain ⟨hclass, superName, hcheck⟩ := h.meets.2.1 s hs
  have hselected := ho.selected? (h.built hr) hclass (kind_of_checkSuperclass hcheck)
  refine ⟨ho.isVirtual, ?_, ?_, ho.isFinal⟩
  · rw [ClassTable.selected?_of_class? hclass] at hselected
    exact (method?_inheritedMethods hi).2 ⟨s, hs, hselected⟩
  · rw [owner_of_declaredMethods hm]
    exact (ClassTable.owner_lt_of_selected? (h.built hr).tabled hselected).ne

/-- The final method that a method of a class file would override is one that calls on the superclass
select. -/
theorem ClassPaths.Linkable.exists_selected?
    (h : paths.Linkable loader name file superclass interfaces verified r r₁)
    (hbreaks : m.Breaks (inheritedMethods file superclass) old) :
    file.access.isInterface = false ∧
      ∃ s ∈ superclass, r₁.table.selected? m.name m.descriptor s.1 = some old := by
  have hi : file.access.isInterface = false := by
    cases hi : file.access.isInterface with
    | false => rfl
    | true =>
      have hmethod := hbreaks.method?
      rw [inheritedMethods, hi] at hmethod
      cases hmethod
  obtain ⟨s, hs, hmethod⟩ := (method?_inheritedMethods hi).1 hbreaks.method?
  exact ⟨hi, s, hs, by rw [ClassTable.selected?_of_class? (h.meets.2.1 s hs).1]; exact hmethod⟩

theorem built_asked (hr : r.table.Built) : (r.asked paths loader name).table.Built := by
  cases loader with
  | boot => exact hr
  | app => exact ((admits_buildsOn paths).load .boot name r).leads.built hr

end

/-- **Final methods are never overridden.** In no class that is no interface does a method that calls select
by the receiver have the name and descriptor of such a method of a superclass that is final, at any
distance. A class file that would have one is refused, and its class is never there; static and private
methods, initializers and the methods of interfaces may have the name and descriptor. -/
theorem keepsFinals (paths : ClassPaths) : paths.KeepsFinals where
  never requests id c hc hi b hb hne e he m hm old hold hv hvold hsame := by
    rcases ClassTable.mem_chain.1 hb with rfl | ⟨s, hs, hbs⟩
    · exact absurd rfl hne
    · by_contra hfinal
      have hoffends : (Registry.after paths requests).table.Offends s m old :=
        ⟨hv, ⟨b, hbs, e, he, hold⟩, hvold, by simpa using hfinal, hsame⟩
      exact (built_after paths requests).not_offends hc hi
        ((ClassTable.superOf?_of_class? hc).symm.trans hs) hm hoffends
  refused requests loader name file superclass interfaces verified r₁ h hi hoffends := by
    obtain ⟨s, hs, m₁, hm₁, old₁, ho⟩ := hoffends
    have hbuilt : ((Registry.after paths requests).asked paths loader name).table.Built :=
      built_asked (built_after paths requests)
    rcases h.link_cases hbuilt with ⟨c, r', hfrom, -⟩ | ⟨m, hm, old, hbreaks, hlink⟩
    · exact absurd (h.breaks hbuilt hi hs hm₁ ho) (hfrom.free m₁ hm₁ old₁)
    · have hload := h.loadClass_eq.trans (Linker.recorded_of_error hlink)
      have hfound : (r₁.remember (loader, name) (.error (overrides m old))).found? loader name = none := by
        rw [Registry.found?, Registry.loaded_remember, if_pos rfl]
      refine ⟨m, hm, old, hbreaks, ⟨_, hload, rfl, hfound⟩, fun later hno hlater t ht => ?_⟩
      subst ht
      have happly : (Request.load loader name).apply paths (Registry.after paths requests) =
          r₁.remember (loader, name) (.error (overrides m old)) := by
        rw [Request.apply, Linker.leads, hload]
      obtain ⟨hwell, hextends⟩ := extends_after hno hlater (q := .load loader name)
        fun held heq => by cases heq
      rw [happly] at hextends
      have hknows := knows_of_load (wellFormed_of_no_teardown hno).linked
        (show Linker.attempt (loadClass paths loader name) _ = _ by rw [Linker.attempt, hload])
      refine ⟨load_of_knows (hknows.mono hextends), ?_⟩
      rintro id d hd ⟨rfl, rfl⟩
      have hrecorded := hextends.loaded (d.loader, d.name) (.error (overrides m old))
        (by rw [Registry.loaded_remember, if_pos rfl])
      cases (hwell.linked.found id d hd).symm.trans hrecorded
  accepted requests loader name file superclass interfaces verified r₁ h hfree := by
    have hbuilt : ((Registry.after paths requests).asked paths loader name).table.Built :=
      built_asked (built_after paths requests)
    rcases h.link_cases hbuilt with ⟨c, r', hfrom, hlink, hc⟩ | ⟨m, hm, old, hbreaks, -⟩
    · exact ⟨_, _, c, h.loadClass_eq.trans (Linker.recorded_of_ok hlink), hc, hfrom.methods⟩
    · obtain ⟨hi, s, hs, hselected⟩ := h.exists_selected? hbreaks
      have hfinal := hfree hi s hs m hm hbreaks.isVirtual old hselected
      rw [hbreaks.isFinal] at hfinal
      cases hfinal

/-! ### Below a class with final methods

The object class has a final method `m` and a final initializer. The class `D` declares `m` again and is
refused. So does the interface `I`, and the class `C` has an initializer of its own; these two are linked. -/

namespace Sealed

open Diamond (linked single)

/-- The class file of the object class. -/
def objectBytes : List UInt8 :=
  [202, 254, 186, 190, 0, 0, 0, 52, 0, 7, 1, 0, 16, 106, 97, 118, 97, 47, 108, 97, 110, 103,
   47, 79, 98, 106, 101, 99, 116, 7, 0, 1, 1, 0, 6, 60, 105, 110, 105, 116, 62, 1, 0, 3, 40,
   41, 86, 1, 0, 4, 67, 111, 100, 101, 1, 0, 1, 109, 0, 33, 0, 2, 0, 0, 0, 0, 0, 0, 0, 2, 0,
   17, 0, 3, 0, 4, 0, 1, 0, 5, 0, 0, 0, 13, 0, 0, 0, 1, 0, 0, 0, 1, 177, 0, 0, 0, 0, 0, 17, 0,
   6, 0, 4, 0, 1, 0, 5, 0, 0, 0, 13, 0, 0, 0, 1, 0, 0, 0, 1, 177, 0, 0, 0, 0, 0, 0]

/-- The class file of `I`. -/
def iBytes : List UInt8 :=
  [202, 254, 186, 190, 0, 0, 0, 52, 0, 7, 1, 0, 1, 73, 7, 0, 1, 1, 0, 16, 106, 97, 118, 97,
   47, 108, 97, 110, 103, 47, 79, 98, 106, 101, 99, 116, 7, 0, 3, 1, 0, 1, 109, 1, 0, 3, 40,
   41, 86, 6, 1, 0, 2, 0, 4, 0, 0, 0, 0, 0, 1, 4, 1, 0, 5, 0, 6, 0, 0, 0, 0]

/-- The class file of `C`. -/
def cBytes : List UInt8 :=
  [202, 254, 186, 190, 0, 0, 0, 52, 0, 8, 1, 0, 1, 67, 7, 0, 1, 1, 0, 16, 106, 97, 118, 97,
   47, 108, 97, 110, 103, 47, 79, 98, 106, 101, 99, 116, 7, 0, 3, 1, 0, 6, 60, 105, 110, 105,
   116, 62, 1, 0, 3, 40, 41, 86, 1, 0, 4, 67, 111, 100, 101, 0, 33, 0, 2, 0, 4, 0, 0, 0, 0, 0,
   1, 0, 1, 0, 5, 0, 6, 0, 1, 0, 7, 0, 0, 0, 13, 0, 0, 0, 1, 0, 0, 0, 1, 177, 0, 0, 0, 0, 0, 0]

/-- The class file of `D`. -/
def dBytes : List UInt8 :=
  [202, 254, 186, 190, 0, 0, 0, 52, 0, 8, 1, 0, 1, 68, 7, 0, 1, 1, 0, 16, 106, 97, 118, 97,
   47, 108, 97, 110, 103, 47, 79, 98, 106, 101, 99, 116, 7, 0, 3, 1, 0, 1, 109, 1, 0, 3, 40, 41,
   86, 1, 0, 4, 67, 111, 100, 101, 0, 33, 0, 2, 0, 4, 0, 0, 0, 0, 0, 1, 0, 1, 0, 5, 0, 6, 0, 1, 0,
   7, 0, 0, 0, 13, 0, 0, 0, 1, 0, 0, 0, 1, 177, 0, 0, 0, 0, 0, 0]

/-- The class paths. -/
def paths : ClassPaths where
  boot := .ofFiles [("java/lang/Object", objectBytes), ("I", iBytes), ("C", cBytes), ("D", dBytes)]
  app := .empty

/-- A method that only returns, with the pool indices of its name, its descriptor and its attribute. -/
def member (access name descriptor code : UInt16) : MemberInfo :=
  ⟨⟨access⟩, name, descriptor, [.mk code (.code 0 1 [177] [] [])]⟩

def objectFile : ClassFile :=
  Diamond.file #[.unusable, .utf8 "java/lang/Object", .classRef 1, .utf8 "<init>", .utf8 "()V",
    .utf8 "Code", .utf8 "m"] 0x21 0 [] [member 0x11 3 4 5, member 0x11 6 4 5]

def iFile : ClassFile :=
  Diamond.file #[.unusable, .utf8 "I", .classRef 1, .utf8 "java/lang/Object", .classRef 3, .utf8 "m",
    .utf8 "()V"] 0x601 4 [] [⟨⟨0x401⟩, 5, 6, []⟩]

def cFile : ClassFile :=
  Diamond.file #[.unusable, .utf8 "C", .classRef 1, .utf8 "java/lang/Object", .classRef 3,
    .utf8 "<init>", .utf8 "()V", .utf8 "Code"] 0x21 4 [] [member 1 5 6 7]

def dFile : ClassFile :=
  Diamond.file #[.unusable, .utf8 "D", .classRef 1, .utf8 "java/lang/Object", .classRef 3, .utf8 "m",
    .utf8 "()V", .utf8 "Code"] 0x21 4 [] [member 1 5 6 7]

set_option maxRecDepth 1000 in
theorem parse_objectBytes : ClassFile.parse objectBytes = .ok objectFile := by rfl

theorem parse_iBytes : ClassFile.parse iBytes = .ok iFile := by rfl

theorem parse_cBytes : ClassFile.parse cBytes = .ok cFile := by rfl

theorem parse_dBytes : ClassFile.parse dBytes = .ok dFile := by rfl

/-- A method without parameters and result. -/
def method (owner : ClassId) (className name : String) (access : UInt16) (slot : Option Nat) : Method where
  owner := owner
  className := className
  name := name
  descriptor := "()V"
  type := ⟨[], none⟩
  access := ⟨access⟩
  code := some ⟨0, 1, ⟨#[⟨0, .leave none⟩], #[], #[some 0]⟩, [], []⟩
  slot := slot
  inInterface := false

/-- The final method `m` of the object class. -/
def objectM : Method := method 0 "java/lang/Object" "m" 0x11 (some 0)

/-- Its final initializer. -/
def objectInit : Method := method 0 "java/lang/Object" "<init>" 0x11 none

/-- The method `m` of `I`. -/
def iM : Method :=
  { method 1 "I" "m" 0x401 (some 0) with code := none, inInterface := true }

/-- The initializer of `C`. -/
def cInit : Method := method 1 "C" "<init>" 1 none

def object : LinkedClass :=
  linked "java/lang/Object" .ordinary none [] [objectInit, objectM] (single objectM) objectFile

def i : LinkedClass := linked "I" .interface (some 0) [] [iM] (single iM) iFile

def c : LinkedClass := linked "C" .ordinary (some 0) [] [cInit] (single objectM) cFile

theorem linkedClass_object :
    linkedClass 0 .boot "java/lang/Object" objectFile none [] = .ok (object, #[]) := by
  decide +kernel

theorem linkedClass_i : linkedClass 1 .boot "I" iFile (some (0, object)) [] = .ok (i, #[]) := by
  decide +kernel

theorem linkedClass_c : linkedClass 1 .boot "C" cFile (some (0, object)) [] = .ok (c, #[]) := by
  decide +kernel

theorem holds_object : (Registry.after paths [.load .boot "java/lang/Object"]).Holds [object] :=
  holds_apply_load holds_empty (by decide) (by decide) rfl parse_objectBytes rfl rfl
    (fun _ => rfl) (fun s hs => by cases hs) rfl (fun p hp => by cases hp) linkedClass_object rfl
    (by decide)

/-- A class below the object class is entered behind it. -/
theorem holds_below {name : String} {bytes : List UInt8} {file : ClassFile} {d : LinkedClass}
    (hname : name ≠ "java/lang/Object") (harray : isArrayName name = false)
    (hfind : paths.boot.find name = .ok (some bytes)) (hparse : ClassFile.parse bytes = .ok file)
    (hnamed : file.name = .ok name) (hsuperName : file.superName = .ok (some "java/lang/Object"))
    (hinterfaces : file.interfaceNames = .ok [])
    (hlinked : linkedClass 1 .boot name file (some (0, object)) [] = .ok (d, #[])) (hd : d.name = name)
    (known : ∀ p ∈ d.parents, p < 1) :
    (Registry.after paths [.load .boot "java/lang/Object", .load .boot name]).Holds [object, d] := by
  have hsuper : file.superName = .ok ((some ((0 : ClassId), object)).map (·.2.name)) := hsuperName
  have hnone : file.interfaceNames = .ok (([] : List (ClassId × LinkedClass)).map (·.2.name)) := hinterfaces
  refine holds_apply_load holds_object ?_ harray hfind hparse hnamed hsuper (fun h => by cases h)
    (fun s hs => ?_) hnone (fun p hp => by cases hp) hlinked hd known
  · intro e he
    obtain rfl := List.mem_singleton.1 he
    exact hname.symm
  · cases hs
    refine ⟨rfl, ?_⟩
    cases file.access.isInterface <;> rfl

/-- The method `m` of `D`. -/
def dM : Method := method 1 "D" "m" 1 none

theorem exists_verified : ∃ verified,
    dFile.methods.mapM (verifyMethod dFile.pool "D" dFile.access.isInterface) = .ok verified ∧
      declaredMethods 1 "D" dFile verified = [dM] := by
  have hmethods : (dFile.methods.mapM (verifyMethod dFile.pool "D" dFile.access.isInterface)).map
      (declaredMethods 1 "D" dFile) = .ok [dM] := by decide +kernel
  rcases h : dFile.methods.mapM (verifyMethod dFile.pool "D" dFile.access.isInterface) with e | verified
  · rw [h] at hmethods
    cases hmethods
  · rw [h] at hmethods
    exact ⟨verified, rfl, Except.ok.inj hmethods⟩

/-- Apart from the method `m` everything about `D` is in order. -/
theorem linkable_d {verified : List VerifiedMethod}
    (h : dFile.methods.mapM (verifyMethod dFile.pool "D" dFile.access.isInterface) = .ok verified) :
    paths.Linkable .boot "D" dFile (some (0, object)) [] verified
      ((Registry.after paths [.load .boot "java/lang/Object"]).asked paths .boot "D")
      (Registry.after paths [.load .boot "java/lang/Object"]) where
  unasked := holds_object.missing "D" (by decide)
  missing := nofun
  plain := by decide
  found := ⟨dBytes, rfl, parse_dBytes⟩
  named := rfl
  above := by
    refine linkAbove_of_class? rfl nofun ?_ rfl nofun
    rintro _ ⟨⟩
    refine ⟨?_, holds_object.class? 0, rfl⟩
    rw [load]
    exact define_of_loaded (holds_object.found 0 object rfl)
  fields := ⟨_, rfl⟩
  methods := h

/-- It would override that of the object class. -/
theorem offends_d : (Registry.after paths [.load .boot "java/lang/Object"]).table.Offends 0 dM objectM where
  isVirtual := rfl
  declared := ⟨0, ClassTable.mem_chain_self 0, object, holds_object.class? 0, by decide⟩
  selectable := rfl
  isFinal := rfl
  same := ⟨rfl, rfl⟩

end Sealed

/-- `D` is refused, whose method `m` would override that of the object class. -/
theorem keepsFinals_override : ∃ r', loadClass Sealed.paths .boot "D"
    (Registry.after Sealed.paths [.load .boot "java/lang/Object"]) =
      .error (.linkage "D.m()V overrides final method in java/lang/Object") r' := by
  obtain ⟨verified, hverified, hdeclared⟩ := Sealed.exists_verified
  have hsize : (Registry.after Sealed.paths [.load .boot "java/lang/Object"]).table.size = 1 :=
    Sealed.holds_object.size
  rw [← hsize] at hdeclared
  obtain ⟨m, hm, old, hbreaks, ⟨r', hload, -⟩, -⟩ := (keepsFinals Sealed.paths).refused _ _ _ _ _ _ _ _
    (Sealed.linkable_d hverified) rfl
    ⟨_, rfl, Sealed.dM, by rw [hdeclared]; exact List.mem_singleton_self _, _, Sealed.offends_d⟩
  rw [hdeclared] at hm
  obtain rfl := List.mem_singleton.1 hm
  obtain rfl : Sealed.objectM = old := Option.some.inj (Eq.trans (by decide) hbreaks.method?)
  exact ⟨r', hload⟩

/-- Whether no method at all that is neither static nor private has the name and descriptor of such a method
of a superclass that is final. -/
def ClassTable.SealsFinals (t : ClassTable) : Prop :=
  ∀ id c, t.class? id = some c → ∀ b ∈ t.chain id, b ≠ id → ∀ e, t.class? b = some e →
    ∀ m ∈ c.methods, ∀ old ∈ e.methods, m.isStatic = false → m.isPrivate = false →
      old.isStatic = false → old.isPrivate = false → old.Overrides m → old.isFinal = false

/-- A class below the object class that has the name and descriptor of a final method of it. -/
theorem Sealed.not_sealsFinals {r : Registry} {d : LinkedClass} {m old : Method}
    (h : r.Holds [Sealed.object, d]) (hsuper : d.superclass = some 0) (hm : m ∈ d.methods)
    (hold : old ∈ Sealed.object.methods) (hs : m.isStatic = false) (hp : m.isPrivate = false)
    (hs' : old.isStatic = false) (hp' : old.isPrivate = false) (hsame : old.Overrides m)
    (hfinal : old.isFinal = true) : ¬ r.table.SealsFinals := by
  intro hseals
  have hclass : r.table.class? 1 = some d := h.class? 1
  have hchain : 0 ∈ r.table.chain 1 := ClassTable.mem_chain.2
    (.inr ⟨0, (ClassTable.superOf?_of_class? hclass).trans hsuper, ClassTable.mem_chain_self 0⟩)
  have := hseals 1 d hclass 0 hchain (by decide) Sealed.object (h.class? 0) m hm old hold hs hp hs' hp' hsame
  rw [hfinal] at this
  cases this

/-- **Interfaces and initializers may repeat final methods**: `I` declares the final method `m` of the object
class again, and `C` has an initializer although that of the object class is final. -/
theorem not_sealsFinals_after :
    ¬ (Registry.after Sealed.paths [.load .boot "java/lang/Object", .load .boot "I"]).table.SealsFinals ∧
    ¬ (Registry.after Sealed.paths [.load .boot "java/lang/Object", .load .boot "C"]).table.SealsFinals := by
  have hi := Sealed.holds_below (by decide) (by decide) rfl Sealed.parse_iBytes rfl rfl rfl
    Sealed.linkedClass_i rfl (by decide)
  have hc := Sealed.holds_below (by decide) (by decide) rfl Sealed.parse_cBytes rfl rfl rfl
    Sealed.linkedClass_c rfl (by decide)
  exact ⟨Sealed.not_sealsFinals hi rfl (show Sealed.iM ∈ _ by decide) (show Sealed.objectM ∈ _ by decide)
      rfl rfl rfl rfl ⟨rfl, rfl⟩ rfl,
    Sealed.not_sealsFinals hc rfl (show Sealed.cInit ∈ _ by decide) (show Sealed.objectInit ∈ _ by decide)
      rfl rfl rfl rfl ⟨rfl, rfl⟩ rfl⟩

end Jvm.Linking
