import Mathlib
import Jvm.Proofs.Execution.Effects
import Jvm.Proofs.Text.Utf16

/-! # Strings, class objects and throwables

What is built of several objects holds on to those that are there already while it creates the others. The
lemmas follow the constructions step by step: a string and its chars, the string for a text, class objects,
string arrays, and what can be read off throwables. -/

namespace Jvm.Execution

open Linking

/-- Whether a reference names a string. -/
def Machine.IsString (m : Machine) (r : Ref) : Prop :=
  ∃ k, m.heap.Has r k ∧ m.registry.Names .boot CoreClasses.stringName k

/-- Whether a class is one of string arrays. -/
def Machine.IsStringArrayClass (m : Machine) (cls : ClassId) : Prop :=
  ∃ e, m.registry.table.componentOf? cls = some (.reference e) ∧
    m.registry.Names .boot CoreClasses.stringName e

namespace Machine

variable {m m' : Machine} {P : Ref → Prop} {r : Ref} {cls : ClassId}

theorem IsString.isLive (hr : m.IsString r) : m.heap.IsLive r := by
  obtain ⟨k, hk, -⟩ := hr
  exact hk.isLive

theorem Leads.names (h : m.Leads P m') {loader : Loader} {name : String} {id : ClassId}
    (hid : m.registry.Names loader name id) : m'.registry.Names loader name id := by
  obtain ⟨cl, hcl, hrest⟩ := hid
  exact ⟨cl, h.table id cl hcl, hrest⟩

theorem IsStringArrayClass.mono (h : m.Leads P m') (hcls : m.IsStringArrayClass cls) :
    m'.IsStringArrayClass cls := by
  obtain ⟨e, he, hname⟩ := hcls
  exact ⟨e, h.table.componentOf? he, h.names hname⟩

/-- A string fits into an array of strings. -/
theorem IsStringArrayClass.storable (hm : m.Sound) (hcls : m.IsStringArrayClass cls)
    (hr : m.IsString r) : Shaped.Storable m.registry.table m.heap cls (.ref r) := by
  obtain ⟨e, he, hname⟩ := hcls
  obtain ⟨k, hk, hkname⟩ := hr
  refine ⟨?_, fun h => by cases he.symm.trans h⟩
  rintro _ ⟨⟩
  refine ⟨k, hk, fun component hcomponent => ?_⟩
  cases he.symm.trans hcomponent
  rw [hm.registry.linked.eq_of_names hkname hname]
  exact ClassTable.isAssignable_iff.2 (.refl e)

end Machine

namespace VM

variable {α β : Type} {P : Ref → Prop} {c : Context} {m : Machine} {r : Ref}

/-- A computation during which some objects are held besides those that are held anyway. -/
theorem Meets.holding {x : VM α} {Q : α → Machine → Prop} {refs : List Ref}
    (hP : ∀ r, P r → m.Held r) (hlive : ∀ r ∈ refs, m.heap.IsLive r)
    (hQ : ∀ a m' pinned, Q a m' → Q a { m' with pinned })
    (hx : Meets (m.hold refs).Held x Q c (m.hold refs)) :
    Meets P (VM.pinning refs x) Q c m :=
  hx.pinning (fun r hr => (hP r hr).imp_left (List.mem_append_right refs))
    (fun _ hr => .inl (List.mem_append_right refs hr)) hQ hlive

theorem Meets.result? {x : VM α} {Q : α → Machine → Prop} (hx : Meets P x Q c m) :
    Meets P (VM.result? x) (fun o m' => ∀ a, o = some a → Q a m') c m := by
  refine hx.attempt.bind fun o m' _ ho => ?_
  cases o with
  | ok a =>
    refine meets_pure ?_
    rintro _ ⟨⟩
    exact ho.1 a rfl
  | error e => exact meets_pure fun a ha => by cases ha

/-- A computation for each entry of a list. -/
theorem quiet_mapM {f : α → VM β} {as : List α}
    (hf : ∀ a ∈ as, ∀ m', m.Leads (fun _ => True) m' → Quiet (f a) (fun _ _ => True) c m') :
    Quiet (as.mapM f) (fun _ _ => True) c m := by
  induction as generalizing m with
  | nil => exact meets_pure trivial
  | cons a as ih =>
    rw [List.mapM_cons]
    refine meets_of_sound fun hm => ?_
    refine (hf a List.mem_cons_self m (.refl hm _)).bind fun b m₁ h₁ _ => ?_
    refine (ih fun a' ha' m' h' => hf a' (List.mem_cons_of_mem a ha') m' (h₁.trans h')).bind
      fun bs m₂ _ _ => meets_pure trivial

/-! ### Strings -/

theorem meets_readChars (hr : m.heap.IsLive r) :
    Meets P (readChars r) (fun _ m' => m' = m) c m := by
  refine meets_reading rfl ((meets_classOf hr).bind ?_)
  rintro cls _ - ⟨rfl, -⟩
  refine meets_guard (fun _ => meets_fail _) fun _ => (meets_getField hr charsSlot).bind ?_
  rintro v _ - ⟨rfl, hv⟩
  split
  · refine (meets_elements (Value.all_ref.1 hv)).bind ?_
    rintro e _ - ⟨rfl, -⟩
    split
    · exact meets_pure rfl
    · exact meets_fail _
  · exact meets_pure rfl

theorem meets_readString (hr : m.heap.IsLive r) :
    Meets P (readString r) (fun _ m' => m' = m) c m := by
  refine (meets_readChars hr).bind ?_
  rintro units _ - rfl
  exact meets_pure rfl

/-- The chars of a string are held while the string itself is created. -/
theorem meets_newStringOfUnits (hP : ∀ r, P r → m.Held r) (units : List UInt16) :
    Meets P (newStringOfUnits units)
      (fun r m' => m'.IsString r ∧ m.registry.Steady m'.registry) c m := by
  refine (meets_link (fun id r => r.table.componentOf? id = some (.primitive .char))
    fun hr => resolves_primitiveArrayClass hr .char).seq fun charArray m₁ h₁ hchar => ?_
  refine (meets_coreClass _).seq fun cls m₂ h₂ hcls => ?_
  have hchar₂ : m₂.registry.table.componentOf? charArray = some (.primitive .char) :=
    h₂.table.componentOf? hchar.1
  have hP₂ : ∀ r, P r → m₂.Held r := fun r hr =>
    ((hP r hr).imp (h₁.pinned r trivial) (h₁.retained r)).imp (h₂.pinned r trivial) (h₂.retained r)
  refine (meets_allocate_chars hP₂ hchar₂ units).bind fun chars m₃ h₃ hchars => ?_
  have hplain : m₃.registry.table.componentOf? cls = none :=
    h₃.sound.registry.componentOf?_of_names (h₃.names hcls.1) (by decide)
  have hstring : Meets P (pinning [chars] (newInstance cls)) (fun string m' =>
      (m'.heap.Has string cls ∧ m'.heap.IsLive chars) ∧ m'.registry = m₃.registry) c m₃ := by
    refine Meets.holding (h₃.held hP₂) (by simpa using hchars.1.isLive) (fun _ _ _ h => h) ?_
    refine (meets_newInstance (m := m₃.hold [chars]) (fun _ h => h) hplain).mono
      fun string m' h hr => ⟨⟨hr.1, ?_⟩, hr.2⟩
    exact h.isLive (.inl List.mem_cons_self) hchars.1.isLive
  refine hstring.bind fun string m₄ h₄ hstring => ?_
  refine (meets_setField hstring.1.1.isLive (.chars rfl rfl) (Value.all_ref.2 hstring.1.2)).seq
    fun _ m₅ h₅ hregistry => meets_pure ⟨?_, ?_⟩
  · exact ⟨cls, h₅.keeps string cls trivial hstring.1.1, h₅.names (h₄.names (h₃.names hcls.1))⟩
  · rw [hregistry, hstring.2, hchars.2]
    exact hchar.2.trans hcls.2

theorem meets_newString (hP : ∀ r, P r → m.Held r) (text : String) : Meets P (newString text)
    (fun r m' => m'.IsString r ∧ m.registry.Steady m'.registry) c m :=
  meets_newStringOfUnits hP _

/-- The string that stands for a text is kept for good. -/
theorem meets_intern_text (hP : ∀ r, P r → m.Held r) (text : String) : Meets P (intern text)
    (fun r m' => m'.heap.IsLive r ∧ m'.registry.interned? text = some r ∧
      ∀ id, m'.registry.classObject? id = m.registry.classObject? id) c m := by
  refine meets_of_sound fun hm => meets_reading rfl ?_
  split
  · next string hstring =>
    exact meets_pure ⟨(Machine.Held.isLive hm (.inr (.inr ⟨text, hstring⟩))), hstring, fun _ => rfl⟩
  · next hnone =>
    refine (meets_newString hP text).bind fun string m₁ h₁ hstring => ?_
    refine (meets_intern hstring.1.isLive).seq ?_
    rintro _ _ - rfl
    refine meets_pure ⟨hstring.1.isLive, ?_, hstring.2.classObject⟩
    have hnone₁ : m₁.registry.interned? text = none := (hstring.2.interned text).trans hnone
    exact (m₁.registry.interned?_intern text text string).trans (if_pos ⟨rfl, hnone₁⟩)

/-- Only the string that stands for a text is given to programs for it. -/
theorem meets_handOut {units : List UInt16}
    (hr : m.registry.interned? (Text.Utf16.decode units) = some r) : Quiet (handOut units r)
      (fun x m' => x = r ∧ m' = { m with handedOut := (units, r) :: m.handedOut }) c m := by
  refine (meets_modify fun hm => hm.leads_handOut _ hr).bind ?_
  rintro _ _ - rfl
  exact meets_pure ⟨rfl, rfl⟩

/-- The string for its text becomes known as a string constant. -/
theorem meets_recordString {id : ClassId} {index : UInt16} (hr : m.heap.IsLive r)
    (hstands : ∀ cl, m.registry.table.class? id = some cl → m.registry.StandsFor cl index r) :
    Quiet (modifyThe Registry fun registry => registry.recordString id index r)
      (fun _ m' => m' = { m with registry := m.registry.recordString id index r }) c m := by
  refine meets_modifyState (fun hw => hw.recordString hstands) (fun _ => rfl) (fun _ => rfl)
    (fun _ _ h => h) fun s x hx => ?_
  rcases ClassState.mem_roots.1 hx with h | h | h
  · exact .inl (ClassState.mem_roots.2 (.inl h))
  · exact .inl (ClassState.mem_roots.2 (.inr (.inl h)))
  · rcases Cache.mem_record h with h | rfl
    exacts [.inl (ClassState.mem_roots.2 (.inr (.inr h))), .inr hr]

/-- A string constant is the string that stands for its text. -/
theorem meets_stringConstant (hP : ∀ r, P r → m.Held r) (id : ClassId) (index : UInt16) :
    Meets P (stringConstant id index) (fun r m' => m'.heap.IsLive r ∧
      ∀ cl, m.registry.table.class? id = some cl → m'.registry.StandsFor cl index r) c m := by
  refine meets_of_sound fun hm => meets_reading rfl ?_
  split
  · next string hstring =>
    obtain ⟨s, hs, hfind⟩ := Option.bind_eq_some_iff.1 hstring
    refine meets_pure ⟨hm.classes string (hm.registry.linked.mem_roots.2 (.inl ⟨id, s, hs, ?_⟩)),
      fun cl hcl => hm.typed.constants id cl s index string hcl hs hfind⟩
    exact ClassState.mem_roots.2 (.inr (.inr (Array.mem_of_getElem? (Option.join_eq_some_iff.1 hfind))))
  · refine (meets_getClass id).seq ?_
    rintro cl _ - ⟨rfl, hcl⟩
    refine (meets_ofExcept (cl.pool.get index)).bind ?_
    rintro constant _ - ⟨rfl, hconstant⟩
    split
    · refine (meets_ofExcept _).bind ?_
      rintro text _ - ⟨rfl, htext⟩
      refine (meets_intern_text hP text).bind fun string m₁ h₁ hstring => ?_
      have hstands : m₁.registry.StandsFor cl index string := ⟨_, text, hconstant, htext, hstring.2.1⟩
      refine (meets_recordString hstring.1 fun cl' hcl' => ?_).seq ?_
      · cases (h₁.table id cl hcl).symm.trans hcl'
        exact hstands
      · rintro _ _ - rfl
        refine Meets.mono ((meets_handOut ?_).weaken fun _ _ => trivial) ?_
        · rw [Text.Utf16.decode_encode]
          exact hstring.2.1
        · rintro _ _ - ⟨rfl, rfl⟩
          refine ⟨hstring.1, fun cl' hcl' => ?_⟩
          cases hcl.symm.trans hcl'
          exact hstands
    · exact meets_fail _

/-- A class gets its class object. -/
theorem meets_setClassObject {id : ClassId} (hr : m.heap.IsLive r) :
    Quiet (modifyThe Registry fun registry => registry.setClassObject id r)
      (fun _ m' => m' = { m with registry := m.registry.setClassObject id r }) c m := by
  refine meets_modifyState (fun hw => hw.modifyState_of_eq id (fun _ => rfl) fun _ => rfl) (fun _ => rfl)
    (fun _ => rfl) (fun s x hx => by simp [hx]) fun s x hx => ?_
  rcases ClassState.mem_roots.1 hx with h | h | h
  · exact .inl (ClassState.mem_roots.2 (.inl h))
  · rcases Option.or_eq_some_iff.1 h with h | ⟨-, h⟩
    · exact .inl (ClassState.mem_roots.2 (.inr (.inl h)))
    · cases h
      exact .inr hr
  · exact .inl (ClassState.mem_roots.2 (.inr (.inr h)))

theorem classObject?_setClassObject {registry : Registry} (hregistry : registry.Linked) {id : ClassId}
    {cl : LinkedClass} (hcl : registry.table.class? id = some cl) (hnone : registry.classObject? id = none) :
    (registry.setClassObject id r).classObject? id = some r := by
  obtain ⟨s, hs⟩ := hregistry.exists_state hcl
  rw [Registry.classObject?, hs, Option.bind_some] at hnone
  refine Option.bind_eq_some_iff.2 ⟨_, Registry.exists_of_state? _ hs, ?_⟩
  rw [if_pos rfl, hnone]
  rfl

/-- The class object of a class is kept for good. -/
theorem meets_classObjectOf (hP : ∀ r, P r → m.Held r) (id : ClassId) : Meets P (classObjectOf id)
    (fun r m' => m'.heap.IsLive r ∧ ((∃ cl, m.registry.table.class? id = some cl) →
      m'.registry.classObject? id = some r)) c m := by
  refine meets_of_sound fun hm => meets_reading rfl ?_
  split
  · next object hobject =>
    exact meets_pure ⟨Machine.Held.isLive hm (.inr (.inl ⟨id, hobject⟩)), fun _ => hobject⟩
  · next hnone =>
    refine (meets_coreClass CoreClasses.className).seq fun classClass m₁ h₁ hclass => ?_
    refine (meets_coreField CoreClasses.className "name" "Ljava/lang/String;").seq
      fun slot m₂ h₂ hslot => ?_
    refine meets_reading rfl ?_
    have hP₂ : ∀ r, P r → m₂.Held r := (h₂.mono fun _ _ => trivial).held
      ((h₁.mono fun _ _ => trivial).held hP)
    refine (meets_intern_text hP₂ _).bind fun name m₃ h₃ hname => ?_
    have hplain : m₃.registry.table.componentOf? classClass = none :=
      h₃.sound.registry.componentOf?_of_names (h₃.names (h₂.names hclass.1)) (by decide)
    -- the name is kept as the string for its text while the object is created
    have hP₃ : ∀ r, P r ∨ r = name → m₃.Held r := by
      rintro r (hr | rfl)
      exacts [h₃.held hP₂ r hr, .inr (.inr ⟨_, hname.2.1⟩)]
    refine (meets_newInstance hP₃ hplain).andThen (fun _ => .inl) fun object m₄ h₄ hobject => ?_
    have hplace := hslot.1.mono (h₃.table.trans h₄.table)
    have hfield := meets_setField (c := c) hobject.1.isLive
      (hplace.slotTakes h₄.sound.registry.built (by simp [assignedFields]) rfl)
      (Value.all_ref.2 (h₄.isLive (.inr rfl) hname.1))
    refine hfield.seq fun _ m₅ h₅ hregistry => ?_
    have hlive₅ : m₅.heap.IsLive object := (h₅.keeps object _ trivial hobject.1).isLive
    refine (meets_setClassObject hlive₅).seq ?_
    rintro _ m₆ h₆ rfl
    refine meets_pure ⟨hlive₅, ?_⟩
    rintro ⟨cl, hcl⟩
    have hcl₅ := h₅.table id cl (h₄.table id cl (h₃.table id cl (h₂.table id cl (h₁.table id cl hcl))))
    refine classObject?_setClassObject h₅.sound.registry.linked hcl₅ ?_
    rw [hregistry, hobject.2, hname.2.2, hslot.2.classObject, hclass.2.classObject, hnone]

/-! ### String arrays -/

theorem meets_stringArrayClass :
    Quiet stringArrayClass (fun cls m' => m'.IsStringArrayClass cls) c m := by
  refine (meets_coreClass _).bind fun cls m₁ _ hcls => ?_
  refine (meets_link (fun id r => r.table.componentOf? id = some (.reference cls))
    fun hr => resolves_arrayClassOf hr cls).mono fun id m₂ h₂ hid => ⟨cls, hid.1, h₂.names hcls.1⟩

/-- The array is held while the strings in it are created. -/
theorem meets_storeStrings {array : Ref} {cls : ClassId} (hP : ∀ r, P r → m.Held r) (hkept : P array)
    (harray : m.heap.Has array cls) (hcls : m.IsStringArrayClass cls) (texts : List String) (start : Nat) :
    Meets P (storeStrings array start texts) (fun _ _ => True) c m := by
  induction texts generalizing start m with
  | nil => exact meets_pure trivial
  | cons text rest ih =>
    refine (meets_newString hP text).bind fun string m₁ h₁ hstring => ?_
    have harray₁ := h₁.keeps array cls hkept harray
    have hcls₁ := hcls.mono h₁
    have hstore := meets_storeElement (c := c) harray₁ start (hcls₁.storable h₁.sound hstring.1)
    refine hstore.seq fun _ m₂ h₂ _ => ?_
    exact ih ((h₂.mono fun _ _ => trivial).held (h₁.held hP)) (h₂.keeps array cls trivial harray₁)
      (hcls₁.mono h₂) (start + 1)

theorem meets_newStringArray (hP : ∀ r, P r → m.Held r) (texts : List String) :
    Meets P (newStringArray texts) (fun r m' => m'.heap.IsLive r) c m := by
  refine meets_stringArrayClass.seq fun cls m₁ h₁ hcls => ?_
  obtain ⟨e, he, hname⟩ := hcls
  have hP₁ : ∀ r, P r → m₁.Held r := (h₁.mono fun _ _ => trivial).held hP
  refine (meets_allocate_zeros hP₁ he texts.length).bind fun array m₂ h₂ harray => ?_
  have hcls₂ : m₂.IsStringArrayClass cls := Machine.IsStringArrayClass.mono h₂ ⟨e, he, hname⟩
  have hfill : Meets P (pinning [array] (storeStrings array 0 texts))
      (fun _ m' => m'.heap.IsLive array) c m₂ := by
    refine Meets.holding (h₂.held hP₁) (by simpa using harray.1.isLive) (fun _ _ _ h => h) ?_
    have hheld : (m₂.hold [array]).Held array := .inl List.mem_cons_self
    exact (meets_storeStrings (fun _ h => h) hheld harray.1 hcls₂ texts 0).mono
      fun _ m' h _ => h.isLive hheld harray.1.isLive
  exact hfill.bind fun _ m₃ _ hlive => meets_pure hlive

/-! ### Throwables -/

theorem quiet_message? (hr : m.heap.IsLive r) : Quiet (message? r) (fun _ _ => True) c m := by
  refine Meets.bind (Q := fun _ _ => True) (Meets.result? (Q := fun _ _ => True) ?_ |>.mono
    fun _ _ _ _ => trivial) fun _ _ _ _ => meets_pure trivial
  refine (meets_coreField _ _ _).bind fun slot m₁ h₁ _ => ?_
  refine (meets_getField (h₁.isLive trivial hr) slot).bind ?_
  rintro v _ - ⟨rfl, hv⟩
  split
  · refine (meets_readString (Value.all_ref.1 hv)).bind ?_
    rintro text _ - rfl
    exact meets_pure trivial
  · exact meets_pure trivial

theorem quiet_describe (hr : m.heap.IsLive r) : Quiet (describe r) (fun _ _ => True) c m := by
  refine ((meets_classOf hr).mono fun _ _ _ h => h.1).result?.bind fun o m₁ h₁ _ => ?_
  split
  · exact meets_pure trivial
  · refine meets_reading rfl ((quiet_message? (h₁.isLive trivial hr)).bind fun _ _ _ _ => ?_)
    exact meets_pure trivial

theorem quiet_stringsIn (hr : m.heap.IsLive r) : Quiet (stringsIn r) (fun _ _ => True) c m := by
  have hread : Quiet (elements r) (fun e m' => ∀ v ∈ e.values, v.All m'.heap.IsLive) c m := by
    refine meets_of_sound fun hm => (meets_elements hr).mono ?_
    rintro e _ - ⟨rfl, o, ho, hcontents⟩ v hv
    exact hm.value_of_array ho hcontents hv
  refine hread.result?.bind fun o m₁ _ ho => ?_
  refine Meets.bind (quiet_mapM fun v hv m₂ h₂ => ?_) fun _ _ _ _ => meets_pure trivial
  cases o with
  | none => simp at hv
  | some e =>
    have hlive := ho e rfl v (by simpa using hv)
    split
    · exact (meets_readString (h₂.isLive trivial (Value.all_ref.1 hlive))).result?.mono
        fun _ _ _ _ => trivial
    · exact meets_pure trivial

theorem quiet_storedTrace (hr : m.heap.IsLive r) : Quiet (storedTrace r) (fun _ _ => True) c m := by
  have hread : Quiet (do getField r (← traceSlot)) (fun v m' => v.All m'.heap.IsLive) c m := by
    refine (meets_coreField _ _ _).bind fun slot m₁ h₁ _ => ?_
    refine (meets_getField (h₁.isLive trivial hr) slot).mono ?_
    rintro v _ - ⟨rfl, hv⟩
    exact hv
  refine hread.result?.bind fun o m₁ _ ho => ?_
  split
  · next trace => exact quiet_stringsIn (Value.all_ref.1 (ho _ rfl))
  · exact meets_pure trivial

theorem quiet_traceLines (constructing : Option Ref) :
    Quiet (traceLines constructing) (fun _ _ => True) c m := by
  refine meets_reading rfl (quiet_mapM fun f _ m' _ => ?_)
  exact (meets_getClass f.cls).bind fun _ _ _ _ => meets_pure trivial

/-- The throwable and its stack trace are held while the lines are created. -/
theorem meets_fillInStackTrace (hP : ∀ r, P r → m.Held r) (hr : m.heap.IsLive r) (skip : Bool) :
    Meets P (fillInStackTrace r skip) (fun _ _ => True) c m := by
  refine (quiet_traceLines _).seq fun lines m₁ h₁ _ => ?_
  refine meets_stringArrayClass.seq fun cls m₂ h₂ hcls => ?_
  refine (meets_coreField _ _ _).seq fun slot m₃ h₃ hslot => ?_
  have hP₃ : ∀ r, P r → m₃.Held r := (h₃.mono fun _ _ => trivial).held
    ((h₂.mono fun _ _ => trivial).held ((h₁.mono fun _ _ => trivial).held hP))
  have hr₃ : m₃.heap.IsLive r :=
    h₃.isLive trivial (h₂.isLive trivial (h₁.isLive trivial hr))
  refine Meets.holding hP₃ (by simpa using hr₃) (fun _ _ _ h => h) ?_
  obtain ⟨e, he, hname⟩ := hcls.mono h₃
  refine (meets_allocate_zeros (m := m₃.hold [r]) (fun _ h => h) he lines.length).bind
    fun trace m₄ h₄ htrace => ?_
  have hr₄ : m₄.heap.IsLive r := h₄.isLive (.inl List.mem_cons_self) hr₃
  have hcls₄ : m₄.IsStringArrayClass cls := Machine.IsStringArrayClass.mono h₄ ⟨e, he, hname⟩
  refine (meets_pin htrace.1.isLive).seq ?_
  rintro _ m₅ h₅ rfl
  -- from here on the trace is held too
  refine (meets_storeStrings (P := (m₄.hold [trace]).Held) (fun _ h => h) (.inl List.mem_cons_self)
    htrace.1 hcls₄ lines 0).andThen (fun s hs => ?_) fun _ m₆ h₆ _ => ?_
  · exact (h₄.held (fun _ h => h) s hs).imp_left (List.mem_cons_of_mem trace)
  · have hheld : (m₄.hold [trace]).Held r :=
      (h₄.held (fun _ h => h) r (.inl List.mem_cons_self)).imp_left (List.mem_cons_of_mem trace)
    have hplace := hslot.1.mono (h₄.table.trans h₆.table)
    refine ((meets_setField (h₆.isLive hheld hr₄)
      (hplace.slotTakes h₆.sound.registry.built (by simp [assignedFields]) rfl) (Value.all_ref.2 ?_)).mono
      fun _ _ _ _ => trivial).weaken fun _ _ => trivial
    exact h₆.isLive (.inl List.mem_cons_self) htrace.1.isLive

theorem quiet_uncaught (hr : m.heap.IsLive r) : Quiet (uncaught r) (fun _ _ => True) c m := by
  refine (meets_classOf hr).attempt.bind fun o m₁ h₁ _ => ?_
  have hr₁ := h₁.isLive trivial hr
  split
  · exact meets_pure trivial
  · exact meets_pure trivial
  · refine meets_reading rfl ((quiet_message? hr₁).bind fun _ m₂ h₂ _ => meets_reading rfl ?_)
    exact (quiet_storedTrace (h₂.isLive trivial hr₁)).bind fun _ _ _ _ => meets_pure trivial

end VM

end Jvm.Execution
