import Mathlib
import Jvm.Proofs.Execution.Reached

/-! # Canonical strings

A machine has one string for each text, but not for each sequence of code units: an unpaired surrogate has no
place in a text, and U+FFFD stands for it. So strings with the same text are given the same string, at any two
times of a run, and so are string constants (`interns_by_text`), while strings are equal only if their code
units are. Strings without unpaired surrogates are given the same string exactly if they are equal, as long as
nothing has been written over the canonical strings, which programs may do (`Machine.Faithful`). -/

namespace Jvm.Execution

open Linking Text ClassFile

variable {m m' : Machine} {c : Context} {r s t : Ref} {us vs : List UInt16}

/-! ## Strings and their code units -/

/-- Whether an object is a string of some code units. -/
inductive Machine.Spells (m : Machine) (s : Ref) : List UInt16 → Prop
  | chars {cls : ClassId} {chars : Ref} {e : Elements} {us : List UInt16} (hcls : m.heap.classOf s = .ok cls)
    (hname : m.registry.table.nameOf cls = CoreClasses.stringName)
    (hfield : m.heap.getField s charsSlot = .ok (.ref chars)) (he : m.heap.elements chars = .ok e)
    (hus : e.chars? = some us) : m.Spells s us
  | empty {cls : ClassId} {v : Value} (hcls : m.heap.classOf s = .ok cls)
    (hname : m.registry.table.nameOf cls = CoreClasses.stringName)
    (hfield : m.heap.getField s charsSlot = .ok v) (hv : ∀ chars, v ≠ .ref chars) : m.Spells s []

namespace Machine.Spells

theorem exists_class (h : m.Spells s us) : ∃ cls, m.heap.classOf s = .ok cls ∧
    m.registry.table.nameOf cls = CoreClasses.stringName := by
  cases h with
  | chars hcls hname | empty hcls hname => exact ⟨_, hcls, hname⟩

theorem isLive (h : m.Spells s us) : m.heap.IsLive s := by
  obtain ⟨cls, hcls, -⟩ := h.exists_class
  by_contra hnone
  rw [Heap.classOf, Heap.object, Heap.not_isLive_iff.1 hnone] at hcls
  cases hcls

/-- A string has its code units alone. -/
theorem unique (h : m.Spells s us) (h' : m.Spells s vs) : us = vs := by
  have heq {v w : Value} (hv : m.heap.getField s charsSlot = .ok v)
      (hw : m.heap.getField s charsSlot = .ok w) : v = w :=
    Except.ok.inj (hv.symm.trans hw)
  cases h with
  | chars _ _ hfield he hus =>
    cases h' with
    | chars _ _ hfield' he' hus' =>
      cases heq hfield hfield'
      cases he.symm.trans he'
      exact Option.some.inj (hus.symm.trans hus')
    | empty _ _ hfield' hv => exact absurd (heq hfield' hfield) (hv _)
  | empty _ _ hfield hv =>
    cases h' with
    | chars _ _ hfield' => exact absurd (heq hfield hfield') (hv _)
    | empty => rfl

/-- Nothing but the objects and the names of their classes matters. -/
theorem congr (h : m.Spells s us) (hheap : m'.heap = m.heap)
    (htable : m'.registry.table = m.registry.table) : m'.Spells s us := by
  cases h with
  | chars hcls hname hfield he hus =>
    exact .chars (hheap ▸ hcls) (htable ▸ hname) (hheap ▸ hfield) (hheap ▸ he) hus
  | empty hcls hname hfield hv => exact .empty (hheap ▸ hcls) (htable ▸ hname) (hheap ▸ hfield) hv

end Machine.Spells

namespace VM

/-- Reading a string comes to its code units. -/
theorem readChars_of_spells (h : m.Spells s us) (c : Context) : readChars s c m = .ok us m := by
  obtain ⟨cls, hcls, hname⟩ := h.exists_class
  unfold readChars
  rw [bind_of_ok (rfl : table c m = .ok m.registry.table m), bind_of_ok (classOf_eq hcls)]
  dsimp only
  rw [if_neg (by simp [hname])]
  cases h with
  | chars _ _ hfield he hus =>
    rw [getField, bind_of_ok (readObject_of_ok hfield)]
    dsimp only
    rw [elements, bind_of_ok (readObject_of_ok he), hus]
    rfl
  | @empty _ v _ _ hfield hv =>
    rw [getField, bind_of_ok (readObject_of_ok hfield)]
    cases v with
    | ref chars => exact absurd rfl (hv chars)
    | _ => rfl

theorem isString_of_spells (h : m.Spells s us) (c : Context) : isString s c m = .ok true m := by
  obtain ⟨cls, hcls, hname⟩ := h.exists_class
  unfold isString
  rw [bind_of_ok (rfl : table c m = .ok m.registry.table m), bind_of_ok (classOf_eq hcls), hname]
  rfl

/-- **Strings are equal exactly if their code units are.** -/
theorem equals_of_spells (hs : m.Spells s us) (ht : m.Spells t vs) (c : Context) :
    StringNatives.equals [.ref s, .ref t] c m = .ok (some (.int (if us = vs then 1 else 0))) m := by
  have hsame : StringNatives.sameText s (.ref t) c m = .ok (decide (us = vs)) m := by
    unfold StringNatives.sameText
    dsimp only
    split
    · next hst =>
      obtain rfl := beq_iff_eq.1 hst
      rw [hs.unique ht, decide_eq_true rfl]
      rfl
    · rw [bind_of_ok (isString_of_spells ht c), if_pos rfl, bind_of_ok (readChars_of_spells hs c),
        bind_of_ok (readChars_of_spells ht c), ← beq_eq_decide]
      rfl
  change (StringNatives.sameText s (.ref t) >>= _) c m = _
  rw [bind_of_ok hsame]
  simp only [decide_eq_true_eq]
  rfl

/-- What asking for the string that stands for the text of a string comes to: there is one, or the string
itself becomes it. -/
inductive Interns (s : Ref) (us : List UInt16) (m : Machine) : Ref → Machine → Prop
  | known {r : Ref} (hr : m.registry.interned? (Utf16.decode us) = some r) :
    Interns s us m r { m with handedOut := (us, r) :: m.handedOut }
  | itself (hnone : m.registry.interned? (Utf16.decode us) = none) :
    Interns s us m s { m with
      registry := m.registry.intern (Utf16.decode us) s
      handedOut := (us, s) :: m.handedOut }

theorem internString_of_spells (h : m.Spells s us) (c : Context) :
    ∃ r m', internString s c m = .ok r m' ∧ Interns s us m r m' := by
  unfold internString
  rw [bind_of_ok (readChars_of_spells h c),
    bind_of_ok (rfl : (getThe Registry : VM Registry) c m = .ok m.registry m)]
  rcases hr : m.registry.interned? (Utf16.decode us) with _ | r
  · exact ⟨s, _, rfl, .itself hr⟩
  · exact ⟨r, _, rfl, .known hr⟩

theorem exists_of_bind {α β : Type} {x : VM α} {g : α → VM β} {b : β} (h : (x >>= g) c m = .ok b m') :
    ∃ a m₁, x c m = .ok a m₁ ∧ g a c m₁ = .ok b m' := by
  rcases hx : x c m with ⟨a, m₁⟩ | ⟨e, m₁⟩
  · rw [bind_of_ok hx] at h
    exact ⟨a, m₁, rfl, h⟩
  · rw [bind_of_error hx] at h
    cases h

end VM

/-! ## What programs have been given -/

/-- Whether a program has been given an object as the string for the text of some code units: those of a
string that it asked about, or of a string constant. -/
inductive Machine.GivenFor (m : Machine) (r : Ref) : List UInt16 → Prop
  | asked {us : List UInt16} (h : (us, r) ∈ m.handedOut) : m.GivenFor r us
  | constant {id : ClassId} {cl : LinkedClass} {index i : UInt16} {text : String}
    (hcl : m.registry.table.class? id = some cl) (hr : m.registry.string? id index = some r)
    (hi : cl.pool.get index = .ok (.string i)) (htext : cl.pool.utf8 i = .ok text) :
    m.GivenFor r (Utf16.encode text)

/-- What has been given for a text stands for it. -/
theorem Machine.GivenFor.interned? (h : m.GivenFor r us) (hm : m.Sound) :
    m.registry.interned? (Utf16.decode us) = some r := by
  cases h with
  | asked h => exact hm.handedOut us r h
  | constant hcl hr hi htext =>
    obtain ⟨s, hs, hfind⟩ := Option.bind_eq_some_iff.1 hr
    obtain ⟨i', text', hi', htext', hinterned⟩ := hm.typed.constants _ _ s _ r hcl hs hfind
    cases hi.symm.trans hi'
    cases htext.symm.trans htext'
    rw [Utf16.decode_encode]
    exact hinterned

/-- What has been given for the same text is the same. -/
theorem Machine.GivenFor.eq (hr : m.GivenFor r us) (hs : m.GivenFor s vs) (hm : m.Sound)
    (htext : Utf16.decode us = Utf16.decode vs) : r = s := by
  have hinterned := hr.interned? hm
  rw [htext, hs.interned? hm] at hinterned
  exact (Option.some.inj hinterned).symm

/-- What has been given is not forgotten when programs ask again. -/
theorem Machine.GivenFor.interns (h : m.GivenFor r vs) (hs : VM.Interns s us m t m') : m'.GivenFor r vs := by
  cases h with
  | asked h => cases hs <;> exact .asked (List.mem_cons_of_mem _ h)
  | constant hcl hr hi htext => cases hs <;> exact .constant hcl hr hi htext

/-- A string constant is given for its text. -/
theorem VM.givenFor_of_stringConstant (hm : m.Sound) {id : ClassId} {index : UInt16}
    (h : stringConstant id index c m = .ok r m') : ∃ cl i text, m.registry.table.class? id = some cl ∧
      cl.pool.get index = .ok (.string i) ∧ cl.pool.utf8 i = .ok text ∧
      m'.GivenFor r (Utf16.encode text) := by
  unfold stringConstant at h
  rw [bind_of_ok (rfl : (getThe Registry : VM Registry) c m = .ok m.registry m)] at h
  cases hstring : m.registry.string? id index with
  | some string =>
    simp only [hstring] at h
    cases h
    obtain ⟨s, hs, hfind⟩ := Option.bind_eq_some_iff.1 hstring
    obtain ⟨cl, hcl⟩ := ClassTable.class?_of_lt
      (hm.registry.linked.states ▸ (Array.getElem?_eq_some_iff.1 hs).1)
    obtain ⟨i, text, hi, htext, -⟩ := hm.typed.constants id cl s index r hcl hs hfind
    exact ⟨cl, i, text, hcl, hi, htext, .constant hcl hstring hi htext⟩
  | none =>
    simp only [hstring] at h
    obtain ⟨cl, m₁, hget, h₁⟩ := exists_of_bind h
    obtain ⟨-, rfl, hcl⟩ := (meets_getClass id).of_eq_ok hm hget
    obtain ⟨constant, m₂, hget, h₂⟩ := exists_of_bind h₁
    obtain ⟨-, rfl, hconstant⟩ := (meets_ofExcept (P := fun _ => True) _).of_eq_ok hm hget
    split at h₂
    · next i =>
      obtain ⟨text, m₃, hget, h₃⟩ := exists_of_bind h₂
      obtain ⟨-, rfl, htext⟩ := (meets_ofExcept (P := fun _ => True) _).of_eq_ok hm hget
      obtain ⟨string, m₄, -, h₄⟩ := exists_of_bind h₃
      obtain ⟨_, m₅, -, h₅⟩ := exists_of_bind h₄
      cases h₅
      exact ⟨cl, i, text, hcl, hconstant, htext, .asked List.mem_cons_self⟩
    · cases h₂

/-! ## Canonical strings -/

namespace Machine

/-- Whether the strings that stand for texts still have these texts: nothing has been written over them. -/
def Faithful (m : Machine) : Prop :=
  ∀ text r, m.registry.interned? text = some r → ∃ us, m.Spells r us ∧ Utf16.decode us = text

/-- Nothing is written over canonical strings when programs ask for them. -/
theorem Faithful.interns (hm : m.Faithful) (hs : m.Spells s us) (h : VM.Interns s us m r m') :
    m'.Faithful := by
  intro text x hx
  cases h with
  | known =>
    obtain ⟨vs, hvs, hdecode⟩ := hm text x hx
    exact ⟨vs, hvs.congr rfl rfl, hdecode⟩
  | itself hnone =>
    dsimp only at hx
    rw [Registry.interned?_intern] at hx
    split at hx
    · next htext =>
      cases hx
      exact ⟨us, hs.congr rfl rfl, htext.1⟩
    · obtain ⟨vs, hvs, hdecode⟩ := hm text x hx
      exact ⟨vs, hvs.congr rfl rfl, hdecode⟩

/-- What has been given for a text has this text. -/
theorem GivenFor.exists_spells (hr : m.GivenFor r us) (hm : m.Sound) (hfaithful : m.Faithful) :
    ∃ ws, m.Spells r ws ∧ Utf16.decode ws = Utf16.decode us :=
  hfaithful _ r (hr.interned? hm)

/-- Different texts are given different strings. -/
theorem GivenFor.text_eq (hr : m.GivenFor r us) (hr' : m.GivenFor r vs) (hm : m.Sound)
    (hfaithful : m.Faithful) : Utf16.decode us = Utf16.decode vs := by
  obtain ⟨ws, hws, hdecode⟩ := hr.exists_spells hm hfaithful
  obtain ⟨ws', hws', hdecode'⟩ := hr'.exists_spells hm hfaithful
  rw [← hdecode, ← hdecode', hws.unique hws']

/-- A program that asks with a string is given one for its code units. No object changes, and nothing is
forgotten. -/
theorem intern_of_spells (hm : m.Sound) (hs : m.Spells s us) (c : Context) : ∃ r m',
    StringNatives.intern [.ref s] c m = .ok (some (.ref r)) m' ∧ m'.Sound ∧ m'.GivenFor r us ∧
      (∀ x vs, m.GivenFor x vs → m'.GivenFor x vs) ∧ (∀ t vs, m.Spells t vs → m'.Spells t vs) ∧
      m'.heap = m.heap ∧ (m.Faithful → m'.Faithful) := by
  obtain ⟨r, m', hrun, hinterns⟩ := VM.internString_of_spells hs c
  obtain ⟨hleads, -⟩ := (VM.meets_internString hs.isLive).of_eq_ok hm hrun
  refine ⟨r, m', ?_, hleads.sound, ?_, fun x vs hx => hx.interns hinterns, fun t vs ht => ?_, ?_,
    fun hfaithful => hfaithful.interns hs hinterns⟩
  · change (VM.internString s >>= fun r => pure (resultRef r)) c m = _
    rw [VM.bind_of_ok hrun]
    rfl
  · cases hinterns <;> exact .asked List.mem_cons_self
  · cases hinterns <;> exact ht.congr rfl rfl
  · cases hinterns <;> rfl

/-- What strings programs are given for texts. -/
structure InternsByText (m : Machine) : Prop where
  equals : ∀ (c : Context) s t us vs, m.Spells s us → m.Spells t vs →
    StringNatives.equals [.ref s, .ref t] c m = .ok (some (.int (if us = vs then 1 else 0))) m
  -- A program that asks with a string is given one for its code units. No object changes.
  asked : ∀ (c : Context) s us, m.Spells s us → ∃ r m',
    StringNatives.intern [.ref s] c m = .ok (some (.ref r)) m' ∧ m'.GivenFor r us ∧ m'.heap = m.heap
  -- One that asks with two strings is given the same string if they have the same text, and only then unless
  -- something has been written over canonical strings.
  both : ∀ (c : Context) s t us vs, m.Spells s us → m.Spells t vs → ∃ r r' m₁ m₂,
    StringNatives.intern [.ref s] c m = .ok (some (.ref r)) m₁ ∧
      StringNatives.intern [.ref t] c m₁ = .ok (some (.ref r')) m₂ ∧
      (Utf16.decode us = Utf16.decode vs → r = r') ∧
      (m.Faithful → r = r' → Utf16.decode us = Utf16.decode vs)
  constants : ∀ (c : Context) id index r m', VM.stringConstant id index c m = .ok r m' →
    ∃ cl i text, m.registry.table.class? id = some cl ∧ cl.pool.get index = .ok (.string i) ∧
      cl.pool.utf8 i = .ok text ∧ m'.GivenFor r (Utf16.encode text)
  same : ∀ r r' us vs, m.GivenFor r us → m.GivenFor r' vs → Utf16.decode us = Utf16.decode vs → r = r'
  later : ∀ m', Relation.ReflTransGen Machine.Goes m m' → ∀ r r' us vs, (us, r) ∈ m.handedOut →
    m'.GivenFor r' vs → Utf16.decode us = Utf16.decode vs → r = r'
  text : m.Faithful → ∀ r us, m.GivenFor r us →
    ∃ ws, m.Spells r ws ∧ Utf16.decode ws = Utf16.decode us
  units : m.Faithful → ∀ r r' us vs, m.GivenFor r us → m.GivenFor r' vs → Utf16.Paired us →
    Utf16.Paired vs → (r = r' ↔ us = vs)

end Machine

/-- **Programs are given the same string exactly for the same text**, whatever else they do, but for writing
over the strings that they are given. -/
theorem interns_by_text (hm : m.Reached) : m.InternsByText where
  equals c s t us vs hs ht := VM.equals_of_spells hs ht c
  asked c s us hs := by
    obtain ⟨r, m', hrun, -, hgiven, -, -, hheap, -⟩ := Machine.intern_of_spells hm.sound hs c
    exact ⟨r, m', hrun, hgiven, hheap⟩
  both c s t us vs hs ht := by
    obtain ⟨r, m₁, hrun₁, hm₁, hr, -, hspells, -, hfaithful₁⟩ :=
      Machine.intern_of_spells hm.sound hs c
    obtain ⟨r', m₂, hrun₂, hm₂, hr', hgiven, -, -, hfaithful₂⟩ :=
      Machine.intern_of_spells hm₁ (hspells t vs ht) c
    have hr₂ := hgiven r us hr
    refine ⟨r, r', m₁, m₂, hrun₁, hrun₂, fun htext => hr₂.eq hr' hm₂ htext, ?_⟩
    rintro hfaithful rfl
    exact hr₂.text_eq hr' hm₂ (hfaithful₂ (hfaithful₁ hfaithful))
  constants c id index r m' h := VM.givenFor_of_stringConstant hm.sound h
  same r r' us vs hr hr' htext := hr.eq hr' hm.sound htext
  later m' hgoes r r' us vs hr hr' htext := by
    obtain ⟨hm', hsub⟩ := hm.sound.goesOn hgoes
    have hremembered : m'.GivenFor r us := .asked (hsub hr)
    exact hremembered.eq hr' hm' htext
  text hfaithful r us hr := hr.exists_spells hm.sound hfaithful
  units hfaithful r r' us vs hr hr' hus hvs := by
    constructor
    · rintro rfl
      rw [← Utf16.encode_decode hus, hr.text_eq hr' hm.sound hfaithful, Utf16.encode_decode hvs]
    · rintro rfl
      exact hr.eq hr' hm.sound rfl

/-- Three literals and a canonical string have been given, and there is another string of the same text as two of
these. -/
theorem interns_by_text_arranging : (arranging 143).InternsByText := interns_by_text (reached_arranging 143)

/-- Unpaired surrogates have the same text, so strings of them that are not equal are given the same string. -/
example : Utf16.decode [0xD800] = Utf16.decode [0xD801] := by rfl

end Jvm.Execution
