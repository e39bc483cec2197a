import Mathlib
import Jvm.Linking.Layout
import Jvm.Proofs.Linking.Verified

/-! # Method tables

A method table is read through its index. `MethodTable.Indexed` says that the index lists the slots of the
table, each once, under the names of their methods. What a table says about a name and a descriptor
(`MethodTable.method?`) is followed through the layout of a class: declared methods take the place of
inherited ones, and a method of a superinterface comes in as `settle` says. -/

namespace Jvm.Linking

/-! ## The index -/

namespace MethodIndex

/-- Everything an index lists: a name, a descriptor and a slot each. -/
def rows (index : MethodIndex) : List (String × String × Nat) :=
  index.flatMap fun entry => entry.2.map (entry.1, ·)

theorem slot?_nil (n d : String) : slot? [] n d = none := rfl

theorem slot?_cons (other : String) (slots : List (String × Nat)) (rest : MethodIndex)
    (n d : String) :
    slot? ((other, slots) :: rest) n d = if n = other then slots.lookup d else slot? rest n d := by
  unfold slot?
  rw [List.lookup_cons]
  by_cases h : n = other
  · simp [h]
  · simp [h, beq_eq_false_iff_ne.2 h]

theorem lookup_concat (slots : List (String × Nat)) (d d' : String) (s : Nat) :
    (slots ++ [(d, s)]).lookup d' = (slots.lookup d').or (if d = d' then some s else none) := by
  rw [List.lookup_append]
  congr 1
  by_cases h : d' = d
  · simp [List.lookup, h]
  · simp [List.lookup, beq_eq_false_iff_ne.2 h, Ne.symm h]

/-- What is listed comes before what is added. -/
theorem slot?_add (n d : String) (s : Nat) (n' d' : String) : ∀ index : MethodIndex,
    (index.add n d s).slot? n' d' =
      (index.slot? n' d').or (if n = n' ∧ d = d' then some s else none)
  | [] => by
    rw [add, slot?_cons, slot?_nil, Option.none_or]
    by_cases hn : n' = n
    · simpa [hn] using lookup_concat [] d d' s
    · simp [hn, Ne.symm hn]
  | (other, slots) :: rest => by
    have ih := slot?_add n d s n' d' rest
    rw [add]
    by_cases ho : other = n
    · rw [if_pos ho, slot?_cons, slot?_cons]
      by_cases hn : n' = other
      · rw [if_pos hn, if_pos hn, lookup_concat]
        simp [hn, ho]
      · rw [if_neg hn, if_neg hn, if_neg (by rintro ⟨rfl, -⟩; exact hn ho.symm), Option.or_none]
    · rw [if_neg ho, slot?_cons, slot?_cons]
      by_cases hn : n' = other
      · rw [if_pos hn, if_pos hn, if_neg (by rintro ⟨rfl, -⟩; exact ho hn.symm), Option.or_none]
      · rw [if_neg hn, if_neg hn, ih]

theorem rows_add (n d : String) (s : Nat) : ∀ index : MethodIndex,
    (index.add n d s).rows.Perm (index.rows ++ [(n, d, s)])
  | [] => .refl _
  | (other, slots) :: rest => by
    rw [add]
    split
    · next h =>
      subst h
      have : rows ((other, slots ++ [(d, s)]) :: rest) =
          slots.map (other, ·) ++ ([(other, d, s)] ++ rows rest) := by
        simp [rows]
      rw [this]
      have hcons : rows ((other, slots) :: rest) ++ [(other, d, s)] =
          slots.map (other, ·) ++ (rows rest ++ [(other, d, s)]) := by
        simp [rows]
      rw [hcons]
      exact List.Perm.append_left _ List.perm_append_comm
    · have := rows_add n d s rest
      have hcons : ∀ more, rows ((other, slots) :: more) = slots.map (other, ·) ++ rows more :=
        fun more => by simp [rows]
      rw [hcons, hcons, List.append_assoc]
      exact List.Perm.append_left _ this

end MethodIndex

/-! ## Tables -/

theorem Method.hasSignature_iff {m : Method} {n d : String} :
    m.hasSignature n d = true ↔ m.name = n ∧ m.descriptor = d := by
  simp [Method.hasSignature]

/-- Whether two methods have the same name and the same descriptor. -/
def Method.Overrides (m m' : Method) : Prop := m.name = m'.name ∧ m.descriptor = m'.descriptor

namespace MethodTable

variable {t t' : MethodTable} {m : Method} {s : Nat} {n d : String}

/-- Whether the index of a method table lists its slots. -/
structure Indexed (t : MethodTable) : Prop where
  rows : t.index.rows.Perm (t.methods.toList.zipIdx.map fun e => (e.1.name, e.1.descriptor, e.2))
  slot : ∀ n d s, t.slot? n d = some s ↔ ∃ m, t.methods[s]? = some m ∧ m.name = n ∧ m.descriptor = d

theorem indexed_empty : Indexed .empty where
  rows := .refl _
  slot n d s := by simp [slot?, empty, MethodIndex.slot?]

theorem Indexed.method?_eq_some (h : t.Indexed) :
    t.method? n d = some m ↔ m ∈ t.methods ∧ m.name = n ∧ m.descriptor = d := by
  rw [method?, Option.bind_eq_some_iff]
  constructor
  · rintro ⟨s, hs, hm⟩
    obtain ⟨m', hm', hname⟩ := (h.slot n d s).1 hs
    obtain rfl := Option.some.inj (hm.symm.trans hm')
    exact ⟨Array.mem_of_getElem? hm, hname⟩
  · rintro ⟨hmem, hname⟩
    obtain ⟨s, hs⟩ := Array.mem_iff_getElem?.1 hmem
    exact ⟨s, (h.slot n d s).2 ⟨m, hs, hname⟩, hs⟩

/-- No two slots are of one name and descriptor. -/
theorem Indexed.slot_eq (h : t.Indexed) {s s' : Nat} {m m' : Method} (hs : t.methods[s]? = some m)
    (hs' : t.methods[s']? = some m') (hmm : m.Overrides m') : s = s' :=
  Option.some.inj (((h.slot _ _ s).2 ⟨m, hs, rfl, rfl⟩).symm.trans
    ((h.slot _ _ s').2 ⟨m', hs', hmm.1.symm, hmm.2.symm⟩))

/-! ### Putting methods in -/

theorem Indexed.push (h : t.Indexed) (hnew : t.slot? m.name m.descriptor = none) :
    (t.push m).Indexed where
  rows := by
    rw [MethodTable.push, Array.toList_push, List.zipIdx_append]
    rw [List.map_append, Array.length_toList, Nat.zero_add]
    exact (MethodIndex.rows_add _ _ _ _).trans (h.rows.append_right _)
  slot n d s := by
    have hslot : (t.push m).slot? n d = (t.slot? n d).or
        (if m.name = n ∧ m.descriptor = d then some t.methods.size else none) :=
      MethodIndex.slot?_add _ _ _ n d t.index
    have hmethods : (t.push m).methods[s]? =
        if s = t.methods.size then some m else t.methods[s]? := Array.getElem?_push
    rw [hslot, hmethods]
    by_cases hname : m.name = n ∧ m.descriptor = d
    · obtain ⟨rfl, rfl⟩ := hname
      rw [hnew]
      have hout : ∀ m', t.methods[s]? = some m' →
          ¬ (m'.name = m.name ∧ m'.descriptor = m.descriptor) := by
        intro m' hm' heq
        have := (h.slot _ _ s).2 ⟨m', hm', heq⟩
        rw [hnew] at this
        cases this
      rw [if_pos ⟨rfl, rfl⟩, Option.none_or, Option.some.injEq]
      split_ifs with hs
      · simp [hs]
      · refine iff_of_false (Ne.symm hs) ?_
        rintro ⟨m', hm', heq⟩
        exact hout m' hm' heq
    · rw [if_neg hname, Option.or_none, h.slot n d s]
      split_ifs with hs
      · subst hs
        simp [hname]
      · rfl

theorem getElem?_replace {s' : Nat} (hs : s < t.methods.size) :
    (t.replace s m).methods[s']? = if s = s' then some m else t.methods[s']? := by
  rw [replace, Array.getElem?_setIfInBounds]
  by_cases h : s = s'
  · subst h
    rw [if_pos rfl, if_pos rfl, if_pos hs]
  · rw [if_neg h, if_neg h]

theorem Indexed.exists_of_slot? (h : t.Indexed) (hslot : t.slot? n d = some s) :
    ∃ m, t.methods[s]? = some m ∧ m.name = n ∧ m.descriptor = d :=
  (h.slot n d s).1 hslot

theorem Indexed.lt_of_slot? (h : t.Indexed) (hslot : t.slot? n d = some s) : s < t.methods.size := by
  obtain ⟨m, hm, -⟩ := h.exists_of_slot? hslot
  exact (Array.getElem?_eq_some_iff.1 hm).1

theorem Indexed.replace (h : t.Indexed) (hslot : t.slot? m.name m.descriptor = some s) :
    (t.replace s m).Indexed where
  rows := by
    obtain ⟨old, hold, hname, hdesc⟩ := h.exists_of_slot? hslot
    have hsame : (t.replace s m).methods.toList.zipIdx.map
          (fun e => (e.1.name, e.1.descriptor, e.2)) =
        t.methods.toList.zipIdx.map fun e => (e.1.name, e.1.descriptor, e.2) := by
      refine List.ext_getElem? fun i => ?_
      simp only [List.getElem?_map, List.getElem?_zipIdx, Array.getElem?_toList,
        getElem?_replace (h.lt_of_slot? hslot)]
      split_ifs with hi
      · subst hi
        simp [hold, hname, hdesc]
      · rfl
    rw [hsame]
    exact h.rows
  slot n d s' := by
    obtain ⟨old, hold, hname, hdesc⟩ := h.exists_of_slot? hslot
    rw [getElem?_replace (h.lt_of_slot? hslot)]
    change t.slot? n d = some s' ↔ _
    rw [h.slot n d s']
    split_ifs with hs
    · subst hs
      simp [hold, hname, hdesc]
    · rfl

/-- How a table changes when a method is put in: it takes the slot of its name and descriptor or a new
one. -/
inductive Puts (t : MethodTable) (m : Method) : Nat → MethodTable → Prop
  | replaced {s : Nat} (hs : t.slot? m.name m.descriptor = some s) : Puts t m s (t.replace s m)
  | added (hs : t.slot? m.name m.descriptor = none) : Puts t m t.methods.size (t.push m)

theorem Puts.indexed (h : t.Puts m s t') (ht : t.Indexed) : t'.Indexed := by
  cases h with
  | replaced hs => exact ht.replace hs
  | added hs => exact ht.push hs

theorem Puts.getElem? (h : t.Puts m s t') (ht : t.Indexed) (s' : Nat) :
    t'.methods[s']? = if s = s' then some m else t.methods[s']? := by
  cases h with
  | replaced hs => exact getElem?_replace (ht.lt_of_slot? hs)
  | added hs =>
    rw [push, Array.getElem?_push]
    simp [eq_comm]

/-- The slot of a method that is put in holds no method of another name or descriptor. -/
theorem Puts.overrides (h : t.Puts m s t') (ht : t.Indexed) {old : Method}
    (hold : t.methods[s]? = some old) : old.Overrides m := by
  cases h with
  | replaced hs =>
    obtain ⟨m', hm', hname⟩ := ht.exists_of_slot? hs
    obtain rfl := Option.some.inj (hold.symm.trans hm')
    exact hname
  | added hs =>
    rw [Array.getElem?_eq_none (Nat.le_refl _)] at hold
    cases hold

theorem Puts.slot_eq (h : t.Puts m s t') {s' : Nat}
    (hs' : t.slot? m.name m.descriptor = some s') : s = s' := by
  cases h with
  | replaced hs => exact Option.some.inj (hs.symm.trans hs')
  | added hs =>
    rw [hs] at hs'
    cases hs'

theorem Puts.method? (h : t.Puts m s t') (ht : t.Indexed) (n d : String) :
    t'.method? n d = if m.hasSignature n d then some m else t.method? n d := by
  refine Option.ext fun m' => ?_
  rw [(h.indexed ht).method?_eq_some, Array.mem_iff_getElem?]
  simp only [h.getElem? ht]
  split_ifs with hname
  · rw [Method.hasSignature_iff] at hname
    constructor
    · rintro ⟨⟨s', hs'⟩, hname'⟩
      split_ifs at hs' with heq
      · exact hs'
      · -- another slot would be of the same name and descriptor
        exact absurd (h.slot_eq ((ht.slot _ _ s').2 ⟨m', hs', hname'.1.trans hname.1.symm,
          hname'.2.trans hname.2.symm⟩)) heq
    · intro heq
      cases heq
      exact ⟨⟨s, if_pos rfl⟩, hname⟩
  · rw [ht.method?_eq_some, Array.mem_iff_getElem?]
    constructor
    · rintro ⟨⟨s', hs'⟩, hname'⟩
      split_ifs at hs' with heq
      · cases hs'
        exact absurd (Method.hasSignature_iff.2 hname') hname
      · exact ⟨⟨s', hs'⟩, hname'⟩
    · rintro ⟨⟨s', hs'⟩, hname'⟩
      refine ⟨⟨s', ?_⟩, hname'⟩
      rw [if_neg, hs']
      rintro rfl
      have := h.overrides ht hs'
      exact hname (Method.hasSignature_iff.2 ⟨this.1.symm.trans hname'.1, this.2.symm.trans hname'.2⟩)

/-- Whether the slots of a table are the first ones of another table, with methods of the same names and
descriptors. -/
def Precedes (t t' : MethodTable) : Prop :=
  ∀ (s : Nat) (m : Method), t.methods[s]? = some m → ∃ m', t'.methods[s]? = some m' ∧ m.Overrides m'

theorem Precedes.refl (t : MethodTable) : t.Precedes t := fun _ m hm => ⟨m, hm, rfl, rfl⟩

theorem Precedes.trans {t₁ t₂ t₃ : MethodTable} (h₁₂ : t₁.Precedes t₂) (h₂₃ : t₂.Precedes t₃) :
    t₁.Precedes t₃ := by
  intro s m hm
  obtain ⟨m₂, hm₂, hname₂⟩ := h₁₂ s m hm
  obtain ⟨m₃, hm₃, hname₃⟩ := h₂₃ s m₂ hm₂
  exact ⟨m₃, hm₃, hname₂.1.trans hname₃.1, hname₂.2.trans hname₃.2⟩

theorem Puts.precedes (h : t.Puts m s t') (ht : t.Indexed) : t.Precedes t' := by
  intro s' old hold
  rw [h.getElem? ht]
  split_ifs with heq
  · subst heq
    exact ⟨m, rfl, h.overrides ht hold⟩
  · exact ⟨old, hold, rfl, rfl⟩

/-- What a table says is what a search through its slots finds. -/
theorem Indexed.find?_methods (h : t.Indexed) (n d : String) :
    t.methods.toList.find? (·.hasSignature n d) = t.method? n d := by
  cases hfind : t.methods.toList.find? (·.hasSignature n d) with
  | none =>
    cases hm : t.method? n d with
    | none => rfl
    | some m =>
      obtain ⟨hmem, hname⟩ := h.method?_eq_some.1 hm
      have := List.find?_eq_none.1 hfind m (Array.mem_toList_iff.2 hmem)
      exact absurd (Method.hasSignature_iff.2 hname) this
  | some m =>
    have hname : m.hasSignature n d = true := by simpa using List.find?_some hfind
    have hmem := Array.mem_toList_iff.1 (List.mem_of_find?_eq_some hfind)
    exact (h.method?_eq_some.2 ⟨hmem, Method.hasSignature_iff.1 hname⟩).symm

theorem Indexed.pairwise_methods (h : t.Indexed) :
    t.methods.toList.Pairwise fun m m' => ¬ m.Overrides m' := by
  rw [List.pairwise_iff_getElem]
  intro i j hi hj hij hmm
  have hslot : ∀ k (hk : k < t.methods.toList.length), t.methods[k]? = some t.methods.toList[k] :=
    fun k hk => by rw [← Array.getElem?_toList, List.getElem?_eq_getElem hk]
  have := h.slot_eq (hslot i hi) (hslot j hj) hmm
  omega

end MethodTable

/-! ## Laying methods out -/

/-- Among some methods the one that calls of a name and descriptor select by the receiver. -/
def selectable? (methods : List Method) (n d : String) : Option Method :=
  methods.find? fun m => m.isVirtual && m.hasSignature n d

/-- What a method table says when it has one answer and a superinterface of the class `id` another. -/
def settle (id : ClassId) (old new : Option Method) : Option Method :=
  match old, new with
  | old, none => old
  | none, some m => some m
  | some m', some m => some (if givesWay id m' m then m else m')

/-- A declared method before and after it is laid out: it has a slot if calls select it by the
receiver. -/
def Method.Placed (m m' : Method) : Prop :=
  m' = { m with slot := m'.slot } ∧ (m'.slot = none ↔ m.isVirtual = false)

namespace MethodLayout

variable {id : ClassId} {inherited : MethodTable} {declared : List Method}
  {interfaces : List LinkedClass} {l l' : MethodLayout} {m : Method}

/-- What a layout of the class `id` says, with the methods of the first superinterfaces. -/
structure LaidOut (id : ClassId) (inherited : MethodTable) (declared : List Method)
    (interfaces : List LinkedClass) (l : MethodLayout) : Prop where
  indexed : l.table.Indexed
  inherits : inherited.Precedes l.table
  placed : List.Forall₂ Method.Placed declared l.methods.reverse
  entered : ∀ m ∈ l.methods, m.owner = id → ∀ s, m.slot = some s → l.table.methods[s]? = some m
  method? : ∀ n d, l.table.method? n d = (interfaces.map (·.virtual? n d)).foldl (settle id)
    ((selectable? l.methods n d).or (inherited.method? n d))

theorem laidOut_nil (h : inherited.Indexed) : LaidOut id inherited [] [] ⟨[], inherited⟩ where
  indexed := h
  inherits := .refl _
  placed := .nil
  entered m hm := by cases hm
  method? n d := by simp [selectable?]

/-- A declared method is put into the table, unless it is one that no call selects by the receiver. It
does not take the slot of a final method of another class. -/
theorem add_cases (h : l.add m = .ok l') :
    (m.isVirtual = false ∧ l' = ⟨m :: l.methods, l.table⟩) ∨
      m.isVirtual = true ∧ ∃ s table, l.table.Puts { m with slot := some s } s table ∧
        l' = ⟨{ m with slot := some s } :: l.methods, table⟩ ∧
        ∀ old, l.table.methods[s]? = some old → old.owner ≠ m.owner → old.isFinal = false := by
  unfold MethodLayout.add at h
  split at h
  · next hv =>
    refine .inr ⟨hv, ?_⟩
    split at h
    · next s hs =>
      dsimp only at h
      split at h
      · cases h
      · next hfinal =>
        cases h
        refine ⟨s, _, .replaced hs, rfl, fun old hold howner => ?_⟩
        rw [hold, Option.filter_eq_none_iff] at hfinal
        simpa [howner] using hfinal old rfl
    · next hs =>
      cases h
      refine ⟨l.table.methods.size, _, .added hs, rfl, fun old hold => ?_⟩
      rw [Array.getElem?_eq_none (Nat.le_refl _)] at hold
      cases hold
  · next hv =>
    cases h
    exact .inl ⟨by simpa using hv, rfl⟩

theorem selectable?_cons (methods : List Method) (n d : String) :
    selectable? (m :: methods) n d =
      if m.isVirtual && m.hasSignature n d then some m else selectable? methods n d := by
  rw [selectable?, List.find?_cons]
  split <;> simp_all [selectable?]

theorem LaidOut.add (hl : LaidOut id inherited declared [] l) (hslot : m.slot = none)
    (hnew : ∀ m' ∈ declared, ¬ m'.Overrides m) (h : l.add m = .ok l') :
    LaidOut id inherited (declared ++ [m]) [] l' := by
  rcases add_cases h with ⟨hv, rfl⟩ | ⟨hv, s, table, hputs, rfl, -⟩
  · exact {
      indexed := hl.indexed
      inherits := hl.inherits
      placed := by
        rw [List.reverse_cons]
        exact List.rel_append hl.placed (.cons ⟨rfl, by simp [hslot, hv]⟩ .nil)
      entered := by
        intro m' hm' howner s hs
        rcases List.mem_cons.1 hm' with rfl | hm'
        · rw [hslot] at hs
          cases hs
        · exact hl.entered m' hm' howner s hs
      method? := fun n d => by
        rw [hl.method?, selectable?_cons, hv]
        rfl }
  · exact {
      indexed := hputs.indexed hl.indexed
      inherits := hl.inherits.trans (hputs.precedes hl.indexed)
      placed := by
        rw [List.reverse_cons]
        exact List.rel_append hl.placed (.cons ⟨rfl, by simp [hv]⟩ .nil)
      entered := by
        intro m' hm' howner s' hs'
        rw [hputs.getElem? hl.indexed]
        rcases List.mem_cons.1 hm' with rfl | hm'
        · rw [if_pos (Option.some.inj hs')]
        · have hold := hl.entered m' hm' howner s' hs'
          rw [if_neg, hold]
          rintro rfl
          -- the method in the slot would be an earlier one of the same name and descriptor
          obtain ⟨i, hi⟩ := List.mem_iff_getElem?.1 (List.mem_reverse.2 hm')
          obtain ⟨m₀, hm₀, hplaced⟩ := Bytecode.exists_of_forall₂ hl.placed hi
          refine hnew m₀ (List.mem_of_getElem? hm₀) ?_
          have := hputs.overrides hl.indexed hold
          rw [hplaced.1] at this
          exact this
      method? := fun n d => by
        rw [hputs.method? hl.indexed, hl.method?, selectable?_cons]
        have hv' : ({ m with slot := some s } : Method).isVirtual = true := hv
        rw [hv', Bool.true_and]
        split <;> rfl }

theorem LaidOut.foldlM : ∀ {rest declared : List Method} {l l' : MethodLayout},
    LaidOut id inherited declared [] l → (∀ m ∈ rest, m.slot = none) →
      (declared ++ rest).Pairwise (fun m m' => ¬ m.Overrides m') →
      rest.foldlM MethodLayout.add l = .ok l' → LaidOut id inherited (declared ++ rest) [] l'
  | [], declared, l, l', hl, _, _, h => by
    cases h
    rwa [List.append_nil]
  | m :: rest, declared, l, l', hl, hslots, hpair, h => by
    rw [List.foldlM_cons] at h
    obtain ⟨l₁, hadd, h⟩ := Verification.exists_of_bind h
    have hnew : ∀ m' ∈ declared, ¬ m'.Overrides m :=
      fun m' hm' => (List.pairwise_append.1 hpair).2.2 m' hm' m List.mem_cons_self
    have hl₁ := hl.add (hslots m List.mem_cons_self) hnew hadd
    have := LaidOut.foldlM hl₁ (fun m' hm' => hslots m' (List.mem_cons_of_mem _ hm'))
      (by simpa using hpair) h
    simpa using this

end MethodLayout

/-! ### Methods of superinterfaces -/

section

variable {id : ClassId} {t t' : MethodTable}

/-- How a table changes when a class inherits a method: it is put in, unless there is an entry that does
not give way. -/
theorem inheritMethod_cases (id : ClassId) (ht : t.Indexed) (m : Method) :
    (∃ s, t.Puts m s (inheritMethod id t m) ∧
        ∀ old, t.methods[s]? = some old → givesWay id old m = true) ∨
      inheritMethod id t m = t ∧
        ∃ old, t.method? m.name m.descriptor = some old ∧ givesWay id old m = false := by
  unfold inheritMethod
  cases hs : t.slot? m.name m.descriptor with
  | none =>
    refine .inl ⟨_, .added hs, fun old hold => ?_⟩
    rw [Array.getElem?_eq_none (Nat.le_refl _)] at hold
    cases hold
  | some s =>
    obtain ⟨old, hold, hname⟩ := ht.exists_of_slot? hs
    dsimp only
    rw [hold]
    by_cases hway : givesWay id old m = true
    · refine .inl ⟨s, ?_, fun old' hold' => ?_⟩
      · rw [if_pos (by simp [hway])]
        exact .replaced hs
      · obtain rfl := Option.some.inj (hold.symm.trans hold')
        exact hway
    · refine .inr ⟨if_neg (by simpa using hway), old, ?_, by simpa using hway⟩
      exact ht.method?_eq_some.2 ⟨Array.mem_of_getElem? hold, hname⟩

/-- Whether a table comes from another one by inheriting methods for the class `id`. -/
structure InheritsInto (id : ClassId) (t t' : MethodTable) : Prop where
  indexed : t'.Indexed
  precedes : t.Precedes t'
  own : ∀ (s : Nat) (m : Method), t.methods[s]? = some m → m.owner = id → t'.methods[s]? = some m

theorem InheritsInto.refl (ht : t.Indexed) : InheritsInto id t t :=
  ⟨ht, .refl t, fun _ _ hm _ => hm⟩

theorem InheritsInto.trans {t₁ t₂ t₃ : MethodTable} (h₁₂ : InheritsInto id t₁ t₂)
    (h₂₃ : InheritsInto id t₂ t₃) : InheritsInto id t₁ t₃ :=
  ⟨h₂₃.indexed, h₁₂.precedes.trans h₂₃.precedes, fun s m hm howner =>
    h₂₃.own s m (h₁₂.own s m hm howner) howner⟩

theorem inheritsInto_inheritMethod (ht : t.Indexed) (m : Method) :
    InheritsInto id t (inheritMethod id t m) := by
  rcases inheritMethod_cases id ht m with ⟨s, hputs, hway⟩ | ⟨heq, -⟩
  · refine ⟨hputs.indexed ht, hputs.precedes ht, fun s' old hold howner => ?_⟩
    rw [hputs.getElem? ht, if_neg, hold]
    rintro rfl
    have := hway old hold
    simp [givesWay, howner] at this
  · rw [heq]
    exact .refl ht

theorem method?_inheritMethod (ht : t.Indexed) (m : Method) (n d : String) :
    (inheritMethod id t m).method? n d =
      if m.hasSignature n d then settle id (t.method? n d) (some m) else t.method? n d := by
  rcases inheritMethod_cases id ht m with ⟨s, hputs, hway⟩ | ⟨heq, old, hold, hway⟩
  · rw [hputs.method? ht]
    split_ifs with hname
    · obtain ⟨rfl, rfl⟩ := Method.hasSignature_iff.1 hname
      cases hold : t.method? m.name m.descriptor with
      | none => rfl
      | some old =>
        obtain ⟨hmem, hsame⟩ := ht.method?_eq_some.1 hold
        obtain ⟨s', hs'⟩ := Array.mem_iff_getElem?.1 hmem
        have hslot := (ht.slot _ _ s').2 ⟨old, hs', hsame⟩
        obtain rfl := hputs.slot_eq hslot
        rw [settle, if_pos (hway old hs')]
    · rfl
  · rw [heq]
    split_ifs with hname
    · obtain ⟨rfl, rfl⟩ := Method.hasSignature_iff.1 hname
      rw [hold, settle, hway]
      rfl
    · rfl

theorem inheritsInto_foldl (id : ClassId) : ∀ (ms : List Method) {t : MethodTable}, t.Indexed →
    InheritsInto id t (ms.foldl (inheritMethod id) t)
  | [], _, ht => .refl ht
  | m :: ms, _, ht =>
    have hm := inheritsInto_inheritMethod ht m
    hm.trans (inheritsInto_foldl id ms hm.indexed)

/-- Of some methods of different names and descriptors one at most says something about a name and a
descriptor. -/
theorem method?_foldl (id : ClassId) (n d : String) : ∀ (ms : List Method) {t : MethodTable}, t.Indexed →
    ms.Pairwise (fun m m' => ¬ m.Overrides m') →
      (ms.foldl (inheritMethod id) t).method? n d =
        settle id (t.method? n d) (ms.find? (·.hasSignature n d))
  | [], t, _, _ => by cases h : t.method? n d <;> simp [settle, h]
  | m :: ms, t, ht, hpair => by
    obtain ⟨hm, hpair⟩ := List.pairwise_cons.1 hpair
    rw [List.foldl_cons, method?_foldl id n d ms (inheritsInto_inheritMethod ht m).indexed hpair,
      method?_inheritMethod ht, List.find?_cons]
    by_cases hname : m.hasSignature n d = true
    · have hrest : ms.find? (·.hasSignature n d) = none := by
        rw [List.find?_eq_none]
        intro m' hm' hname'
        have h₁ := Method.hasSignature_iff.1 hname
        have h₂ := Method.hasSignature_iff.1 hname'
        exact hm m' hm' ⟨h₁.1.trans h₂.1.symm, h₁.2.trans h₂.2.symm⟩
      rw [if_pos hname, hrest, hname]
      cases settle id (t.method? n d) (some m) <;> rfl
    · rw [if_neg hname]
      simp [hname]

namespace MethodLayout

variable {inherited : MethodTable} {declared : List Method} {interfaces : List LinkedClass}
  {l : MethodLayout}

theorem LaidOut.inherit (hl : LaidOut id inherited declared interfaces l) {i : LinkedClass}
    (hi : i.methodTable.Indexed) :
    LaidOut id inherited declared (interfaces ++ [i])
      { l with table := i.vtable.foldl (inheritMethod id) l.table } := by
  rw [← Array.foldl_toList]
  have hkeeps := inheritsInto_foldl id i.vtable.toList hl.indexed
  exact {
    indexed := hkeeps.indexed
    inherits := hl.inherits.trans hkeeps.precedes
    placed := hl.placed
    entered := fun m hm howner s hs => hkeeps.own s m (hl.entered m hm howner s hs) howner
    method? := fun n d => by
      have := method?_foldl id n d i.vtable.toList hl.indexed hi.pairwise_methods
      rw [this, hl.method?, LinkedClass.vtable, hi.find?_methods, List.map_append, List.foldl_append]
      rfl }

theorem LaidOut.inheritAll : ∀ (rest : List LinkedClass) {interfaces : List LinkedClass}
    {l : MethodLayout}, LaidOut id inherited declared interfaces l →
      (∀ i ∈ rest, i.methodTable.Indexed) →
      LaidOut id inherited declared (interfaces ++ rest) { l with
        table := rest.foldl (fun table i => i.vtable.foldl (inheritMethod id) table) l.table }
  | [], interfaces, l, hl, _ => by rwa [List.append_nil]
  | i :: rest, interfaces, l, hl, hrest => by
    have := LaidOut.inheritAll rest (hl.inherit (hrest i List.mem_cons_self))
      fun j hj => hrest j (List.mem_cons_of_mem _ hj)
    simpa using this

/-- **What a layout says**: the methods that a class declares are in their slots, behind the slots of its
superclass, and what the table says about a name and a descriptor goes from the declared methods over
the inherited ones to those of the superinterfaces. -/
theorem laidOut_of_layOutMethods (hinherited : inherited.Indexed)
    (hslots : ∀ m ∈ declared, m.slot = none)
    (hdeclared : declared.Pairwise fun m m' => ¬ m.Overrides m')
    (hinterfaces : ∀ i ∈ interfaces, i.methodTable.Indexed)
    (h : layOutMethods id inherited declared interfaces = .ok l) :
    LaidOut id inherited declared interfaces l := by
  obtain ⟨l₁, hfold, h⟩ := Verification.exists_of_bind h
  cases h
  have hl : LaidOut id inherited ([] ++ declared) [] l₁ :=
    LaidOut.foldlM (laidOut_nil hinherited) hslots hdeclared hfold
  exact LaidOut.inheritAll interfaces hl hinterfaces

end MethodLayout

end

end Jvm.Linking
