import Mathlib
import Jvm.Proofs.Linking.Building
import Jvm.Proofs.Linking.Loads

/-! # Entering classes in order

Loading a class whose superclass and superinterfaces are loaded enters it behind the other classes.
`Registry.Holds` lists the classes of a registry in which all loading has come out well; `holds_apply_load` says
that such a request makes the list longer by the class that is linked. -/

namespace Jvm.Linking

open ClassFile Assembly

/-- Whether a registry has the classes of a list, all of them core classes that were loaded by name. -/
structure Registry.Holds (r : Registry) (cs : List LinkedClass) : Prop where
  classes : r.table.classes.toList = cs
  found : ∀ (id : ClassId) (c : LinkedClass), cs[id]? = some c → r.loaded[(Loader.boot, c.name)]? = some (.ok id)
  missing : ∀ name, (∀ c ∈ cs, c.name ≠ name) → r.loaded[(Loader.boot, name)]? = none

theorem holds_empty : Registry.empty.Holds [] where
  classes := rfl
  found id c h := by cases h
  missing name _ := Std.HashMap.getElem?_empty

theorem mapM_of_ok {ι α β ε σ : Type} {f : α → EStateM ε σ β} {a : ι → α} {b : ι → β} {s : σ} :
    ∀ {l : List ι}, (∀ x ∈ l, f (a x) s = .ok (b x) s) → (l.map a).mapM f s = .ok (l.map b) s
  | [], _ => rfl
  | x :: l, h => by
    rw [List.map_cons, List.mapM_cons, bind_of_ok (h x List.mem_cons_self)]
    rw [bind_of_ok (mapM_of_ok fun y hy => h y (List.mem_cons_of_mem _ hy))]
    rfl

theorem ofExcept_ok {α : Type} (a : α) (r : Registry) : Linker.ofExcept (.ok a) r = .ok a r := rfl

section

variable {r r' : Registry} {cs : List LinkedClass} {paths : ClassPaths} {stack : List Key}
  {load : String → Linker ClassId} {loader : Loader} {name : String} {id : ClassId} {c : LinkedClass}

theorem Registry.Holds.class? (h : r.Holds cs) (id : ClassId) : r.table.class? id = cs[id]? := by
  rw [ClassTable.class?, ← h.classes, Array.getElem?_toList]

theorem Registry.Holds.size (h : r.Holds cs) : r.table.size = cs.length := by
  rw [ClassTable.size, ← h.classes, Array.length_toList]

/-- The table is known from its classes. -/
theorem Registry.Holds.table_eq (h : r.Holds cs) {t : ClassTable} (ht : t.classes.toList = cs) : r.table = t := by
  have hclasses : r.table.classes = t.classes := Array.toList_inj.1 (h.classes.trans ht.symm)
  generalize r.table = s at hclasses
  obtain ⟨classes, _⟩ := s
  cases hclasses
  rfl

/-- What has been loaded is found again. -/
theorem define_of_loaded (h : r.loaded[(loader, name)]? = some (.ok id)) :
    define paths stack loader name r = .ok id r := by
  rw [define, bind_of_ok (get_eq r), h]
  rfl

theorem getClass_of_class? (h : r.table.class? id = some c) : Linker.getClass id r = .ok c r := by
  rw [Linker.getClass, bind_of_ok (get_eq r), show r.class? id = some c from h]
  rfl

theorem numbered_of_class? (h : r.table.class? id = some c) :
    Linker.numbered id r = .ok (id, c) r := by
  rw [Linker.numbered, bind_of_ok (getClass_of_class? h)]
  rfl

/-- Classes that are there are found with their numbers. -/
theorem mapM_numbered_option {p : Option (ClassId × LinkedClass)}
    (h : ∀ s ∈ p, r.table.class? s.1 = some s.2) : (p.map (·.1)).mapM Linker.numbered r = .ok p r := by
  cases p with
  | none => rfl
  | some s =>
    change (Linker.numbered s.1 >>= fun p => pure (some p)) r = _
    rw [bind_of_ok (numbered_of_class? (h s rfl))]
    rfl

theorem mapM_numbered {ps : List (ClassId × LinkedClass)}
    (h : ∀ p ∈ ps, r.table.class? p.1 = some p.2) : (ps.map (·.1)).mapM Linker.numbered r = .ok ps r := by
  have := mapM_of_ok (b := fun i => i) (a := fun i => i.1) (f := Linker.numbered) (s := r) (l := ps)
    fun i hi => numbered_of_class? (h i hi)
  rwa [List.map_id'] at this

/-- The classes that a class file names are those that are loaded. -/
theorem linkAbove_of_class? {file : ClassFile} {superclass : Option (ClassId × LinkedClass)}
    {interfaces : List (ClassId × LinkedClass)}
    (hsuperName : file.superName = .ok (superclass.map (·.2.name)))
    (hobject : superclass = none → name = objectName)
    (hsuper : ∀ s ∈ superclass, load s.2.name r = .ok s.1 r ∧ r.table.class? s.1 = some s.2 ∧
      checkSuperclass name s.2.name file.access.isInterface s.2 = .ok ())
    (hinterfaceNames : file.interfaceNames = .ok (interfaces.map (·.2.name)))
    (hinterfaces : ∀ i ∈ interfaces, load i.2.name r = .ok i.1 r ∧ r.table.class? i.1 = some i.2 ∧
      i.2.isInterface = true) :
    linkAbove load name file r = .ok (superclass, interfaces) r := by
  have hlinkSuper : linkSuperclass load name file r = .ok (superclass.map (·.1)) r := by
    rw [linkSuperclass, hsuperName, bind_of_ok (ofExcept_ok _ r)]
    cases superclass with
    | none => rw [hobject rfl]; rfl
    | some s =>
      obtain ⟨hload, hclass, hcheck⟩ := hsuper s rfl
      dsimp only [Option.map_some]
      rw [bind_of_ok hload, bind_of_ok (getClass_of_class? hclass), hcheck]
      rfl
  have hlinkInterfaces : (interfaces.map (·.2.name)).mapM (linkInterface load name) r =
      .ok (interfaces.map (·.1)) r := by
    refine mapM_of_ok fun i hi => ?_
    obtain ⟨hload, hclass, hinterface⟩ := hinterfaces i hi
    rw [linkInterface, bind_of_ok hload, bind_of_ok (getClass_of_class? hclass), hinterface]
    rfl
  have hnumberSuper := mapM_numbered_option fun s hs => (hsuper s hs).2.1
  have hnumberInterfaces := mapM_numbered fun i hi => (hinterfaces i hi).2.1
  rw [linkAbove, bind_of_ok hlinkSuper, hinterfaceNames, bind_of_ok (ofExcept_ok _ r),
    bind_of_ok hlinkInterfaces, bind_of_ok hnumberSuper, bind_of_ok hnumberInterfaces]
  rfl

/-- A class is linked over classes that are loaded. -/
theorem link_of_class? {file : ClassFile} {superclass : Option (ClassId × LinkedClass)}
    {interfaces : List (ClassId × LinkedClass)} {statics : Array Value}
    (hname : file.name = .ok name)
    (hsuperName : file.superName = .ok (superclass.map (·.2.name)))
    (hobject : superclass = none → name = objectName)
    (hsuper : ∀ s ∈ superclass, load s.2.name r = .ok s.1 r ∧ r.table.class? s.1 = some s.2 ∧
      checkSuperclass name s.2.name file.access.isInterface s.2 = .ok ())
    (hinterfaceNames : file.interfaceNames = .ok (interfaces.map (·.2.name)))
    (hinterfaces : ∀ i ∈ interfaces, load i.2.name r = .ok i.1 r ∧ r.table.class? i.1 = some i.2 ∧
      i.2.isInterface = true)
    (hlinked : linkedClass r.table.size loader name file superclass interfaces = .ok (c, statics))
    (known : ∀ p ∈ c.parents, p < r.table.size) :
    link load loader name file r = .ok r.table.size { r with
      table := r.table.push c known
      states := r.states.push (.start .linked statics c.pool.size) } := by
  have habove : linkAbove load name file r = .ok (superclass, interfaces) r :=
    linkAbove_of_class? hsuperName hobject hsuper hinterfaceNames hinterfaces
  rw [link_eq hname, bind_of_ok habove, bind_of_ok (get_eq r), hlinked, bind_of_ok (ofExcept_ok _ r)]
  exact Linker.publish_of_known .linked statics known

/-- A class that is requested for the first time is linked from its class file, and recorded. -/
theorem define_of_link {bytes : List UInt8} {file : ClassFile}
    (hnew : r.loaded[(loader, name)]? = none) (hfresh : (loader, name) ∉ stack)
    (harray : isArrayName name = false) (hfind : (paths.ofLoader loader).find name = .ok (some bytes))
    (hparse : ClassFile.parse bytes = .ok file)
    (hlink : link (fun n => Linking.load paths ((loader, name) :: stack) loader n) loader name file r =
      .ok id r') :
    define paths stack loader name r = .ok id (r'.remember (loader, name) (.ok id)) := by
  rw [define, bind_of_ok (get_eq r), hnew]
  dsimp only
  rw [dif_neg hfresh, dif_neg (by simp [harray])]
  refine Eq.trans (bind_of_ok (show _ = EStateM.Result.ok (Except.ok id) r' from ?_)) rfl
  split
  · next h => rw [hfind] at h; cases h
  · next h => rw [hfind] at h; cases h
  · next bytes' h =>
    obtain rfl : bytes = bytes' := by
      rw [hfind] at h
      cases h
      rfl
    rw [hparse]
    simp only [Linker.attempt, bind_of_ok (ofExcept_ok _ r), hlink]

/-- A class that is entered and recorded stands behind the others. -/
theorem Registry.Holds.apply_load (h : r.Holds cs) {states : Array ClassState}
    (hnew : ∀ d ∈ cs, d.name ≠ c.name) (known : ∀ p ∈ c.parents, p < r.table.size)
    (hdefine : define paths [] .boot c.name r = .ok r.table.size
      (Registry.remember { r with table := r.table.push c known, states } (.boot, c.name)
        (.ok r.table.size))) :
    (Request.apply paths r (.load .boot c.name)).Holds (cs ++ [c]) := by
  have hclasses : (r.table.push c known).classes.toList = cs ++ [c] := by
    rw [ClassTable.push, Array.toList_push, h.classes]
  rw [Request.apply, Linker.leads, loadClass, Linking.load, hdefine]
  exact {
    classes := hclasses
    found := fun id d hd => by
      dsimp only
      rw [Registry.loaded_remember]
      by_cases hid : id < cs.length
      · rw [List.getElem?_append_left hid] at hd
        rw [if_neg, h.found id d hd]
        intro heq
        exact hnew d (List.mem_of_getElem? hd) (congrArg Prod.snd heq).symm
      · obtain ⟨hlt, hget⟩ := List.getElem?_eq_some_iff.1 hd
        have hle : id < cs.length + 1 := by simpa using hlt
        obtain rfl : id = cs.length :=
          Nat.le_antisymm (Nat.le_of_lt_succ hle) (Nat.le_of_not_lt hid)
        obtain rfl : c = d := by simpa using hget
        rw [if_pos rfl, h.size]
    missing := fun n hn => by
      dsimp only
      rw [Registry.loaded_remember, if_neg, h.missing n fun d hd => hn d (by simp [hd])]
      rintro ⟨⟩
      exact hn c (by simp) rfl }

/-- Loading a class whose superclass and superinterfaces are loaded enters it behind the others. -/
theorem holds_apply_load (h : r.Holds cs) {bytes : List UInt8} {file : ClassFile}
    {superclass : Option (ClassId × LinkedClass)} {interfaces : List (ClassId × LinkedClass)}
    {statics : Array Value} (hnew : ∀ d ∈ cs, d.name ≠ name) (harray : isArrayName name = false)
    (hfind : paths.boot.find name = .ok (some bytes)) (hparse : ClassFile.parse bytes = .ok file)
    (hname : file.name = .ok name)
    (hsuperName : file.superName = .ok (superclass.map (·.2.name)))
    (hobject : superclass = none → name = objectName)
    (hsuper : ∀ s ∈ superclass, cs[s.1]? = some s.2 ∧
      checkSuperclass name s.2.name file.access.isInterface s.2 = .ok ())
    (hinterfaceNames : file.interfaceNames = .ok (interfaces.map (·.2.name)))
    (hinterfaces : ∀ i ∈ interfaces, cs[i.1]? = some i.2 ∧ i.2.isInterface = true)
    (hlinked : linkedClass cs.length .boot name file superclass interfaces = .ok (c, statics))
    (hc : c.name = name) (known : ∀ p ∈ c.parents, p < cs.length) :
    (Request.apply paths r (.load .boot name)).Holds (cs ++ [c]) := by
  have hload : ∀ (p : ClassId × LinkedClass), cs[p.1]? = some p.2 →
      Linking.load paths [(.boot, name)] .boot p.2.name r = .ok p.1 r ∧
        r.table.class? p.1 = some p.2 := by
    intro p hp
    refine ⟨?_, (h.class? p.1).trans hp⟩
    rw [Linking.load]
    exact define_of_loaded (h.found p.1 p.2 hp)
  rw [← h.size] at hlinked known
  have hlink : link (fun n => Linking.load paths [(.boot, name)] .boot n) .boot name file r =
      .ok r.table.size { r with
        table := r.table.push c known
        states := r.states.push (.start .linked statics c.pool.size) } :=
    link_of_class? hname hsuperName hobject
      (fun s hs => ⟨(hload s (hsuper s hs).1).1, (hload s (hsuper s hs).1).2, (hsuper s hs).2⟩)
      hinterfaceNames
      (fun i hi => ⟨(hload i (hinterfaces i hi).1).1, (hload i (hinterfaces i hi).1).2,
        (hinterfaces i hi).2⟩) hlinked known
  have hdefine := define_of_link (h.missing name hnew) List.not_mem_nil harray hfind hparse hlink
  subst hc
  exact h.apply_load hnew known hdefine

/-- Loading an array class whose component is loaded, and which is defined behind the core classes then, enters it
behind the others. -/
theorem Registry.Holds.apply_load_array (h : r.Holds cs) {component : Component} {object : LinkedClass}
    {o i j : ClassId} (hnew : ∀ d ∈ cs, d.name ≠ name) (hobject : cs[o]? = some object)
    (hobjectName : object.name = objectName)
    (hcloneable : r.loaded[(Loader.boot, CoreClasses.cloneableName)]? = some (.ok i))
    (hserializable : r.loaded[(Loader.boot, CoreClasses.serializableName)]? = some (.ok j))
    (known : ∀ p ∈ (arrayClass .boot name component o i j object.methodTable).parents, p < cs.length)
    (hover : defineBy paths (Linking.load paths [(.boot, name)]) .boot name r =
      arrayOver (Linking.load paths [(.boot, name)] .boot) .boot name component r) :
    (Request.apply paths r (.load .boot name)).Holds
      (cs ++ [arrayClass .boot name component o i j object.methodTable]) := by
  have hcore : ∀ {n : String} {k : ClassId}, r.loaded[(Loader.boot, n)]? = some (.ok k) →
      Linking.load paths [(.boot, name)] .boot n r = .ok k r := by
    intro n k hk
    rw [Linking.load]
    exact define_of_loaded hk
  have hloadObject := hcore (hobjectName ▸ h.found o object hobject)
  rw [← h.size] at known
  have hlink : linkArray .boot name component o i j r = .ok r.table.size { r with
      table := r.table.push (arrayClass .boot name component o i j object.methodTable) known
      states := r.states.push (.start .initialized #[] 0) } := by
    rw [linkArray, bind_of_ok (getClass_of_class? ((h.class? o).trans hobject))]
    exact Linker.publish_of_known .initialized #[] known
  rw [arrayOver, bind_of_ok hloadObject, bind_of_ok (hcore hcloneable), bind_of_ok (hcore hserializable)] at hover
  have hdefine : define paths [] .boot name r = _ := define_of_fresh (h.missing name hnew) List.not_mem_nil
  rw [Linker.recorded_of_ok (hover.trans hlink)] at hdefine
  exact h.apply_load hnew known hdefine

/-- Loading the array class of a primitive type enters it behind the others. -/
theorem holds_apply_load_array (h : r.Holds cs) {element : Primitive} {object : LinkedClass}
    {o i j : ClassId} (hnew : ∀ d ∈ cs, d.name ≠ name)
    (helement : elementName? name = some (.primitive element))
    (hobject : cs[o]? = some object) (hobjectName : object.name = objectName)
    (hcloneable : r.loaded[(Loader.boot, CoreClasses.cloneableName)]? = some (.ok i))
    (hserializable : r.loaded[(Loader.boot, CoreClasses.serializableName)]? = some (.ok j))
    (known : ∀ p ∈ [o, i, j], p < cs.length) :
    (Request.apply paths r (.load .boot name)).Holds
      (cs ++ [arrayClass .boot name (.primitive element) o i j object.methodTable]) := by
  have harray := isArrayName_of_elementName? helement
  refine h.apply_load_array hnew hobject hobjectName hcloneable hserializable ?_ ?_
  · simpa [LinkedClass.parents, arrayClass] using known
  · rw [defineBy_of_primitive_boot harray helement]

/-- So does loading that of a class which is loaded. -/
theorem holds_apply_load_arrays (h : r.Holds cs) {element : String} {component object : LinkedClass}
    {e o i j : ClassId} (hnew : ∀ d ∈ cs, d.name ≠ name)
    (helement : elementName? name = some (.reference element)) (hcomponent : cs[e]? = some component)
    (hname : component.name = element) (hobject : cs[o]? = some object) (hobjectName : object.name = objectName)
    (hcloneable : r.loaded[(Loader.boot, CoreClasses.cloneableName)]? = some (.ok i))
    (hserializable : r.loaded[(Loader.boot, CoreClasses.serializableName)]? = some (.ok j))
    (known : ∀ p ∈ [o, i, j, e], p < cs.length) :
    (Request.apply paths r (.load .boot name)).Holds
      (cs ++ [arrayClass .boot name (.reference e) o i j object.methodTable]) := by
  have harray := isArrayName_of_elementName? helement
  refine h.apply_load_array hnew hobject hobjectName hcloneable hserializable ?_ ?_
  · simpa [LinkedClass.parents, arrayClass] using known
  · have hload : Linking.load paths [(.boot, name)] .boot element r = .ok e r := by
      rw [Linking.load]
      exact define_of_loaded (hname ▸ h.found e component hcomponent)
    rw [defineBy_of_reference harray helement, bind_of_ok hload,
      bind_of_ok (getClass_of_class? ((h.class? e).trans hcomponent)), if_neg (by simp)]

end

end Jvm.Linking
