import Mathlib
import Jvm.ClassFile.Descriptor

/-! # The grammar of descriptors

A text is read as a type exactly if it belongs to the grammar of descriptors (`isFieldDescriptor_iff`,
`isMethodDescriptor_iff`), and it is read as the type that writes it (`ofChars?_eq_some_iff`); so each type
that a descriptor can hold is read again. -/

namespace Jvm.ClassFile

/-! ### Texts -/

/-- Whether a class name can stand in a descriptor. -/
structure NameText (name : List Char) : Prop where
  nonempty : name ≠ []
  dot : '.' ∉ name
  bracket : '[' ∉ name
  semicolon : ';' ∉ name

/-- The texts of types that are no arrays: a letter, or a class name in front of a semicolon. -/
inductive ElementText : List Char → Prop
  | letter {c : Char} (hc : c ∈ ['B', 'C', 'D', 'F', 'I', 'J', 'S', 'Z']) : ElementText [c]
  | name {name : List Char} (hname : NameText name) : ElementText ('L' :: (name ++ [';']))

/-- The texts of types: at most 255 brackets and the text of an element. -/
def IsFieldDescriptor (cs : List Char) : Prop :=
  ∃ n e, n ≤ 255 ∧ ElementText e ∧ cs = List.replicate n '[' ++ e

/-- The texts of method types: those of the parameters in parentheses, and that of the result or `V`. -/
def IsMethodDescriptor (cs : List Char) : Prop :=
  ∃ (params : List (List Char)) (result : List Char), (∀ p ∈ params, IsFieldDescriptor p) ∧
    (result = ['V'] ∨ IsFieldDescriptor result) ∧ cs = '(' :: (params.flatten ++ ')' :: result)

namespace FieldType

variable {cs rest : List Char} {t : FieldType} {n : Nat}

/-! ### Elements and dimensions -/

/-- The type inside all array dimensions. -/
def element : FieldType → FieldType
  | array component => component.element
  | t => t

/-- The number of array dimensions. -/
def dimensions : FieldType → Nat
  | array component => component.dimensions + 1
  | _ => 0

/-- Whether a descriptor can hold a type. -/
structure Describable (t : FieldType) : Prop where
  dimensions : t.dimensions ≤ 255
  name : ∀ name, t.element = object name → NameText name.toList

theorem element_arrayOf (t : FieldType) (n : Nat) : (t.arrayOf n).element = t.element := by
  induction n with
  | zero => rfl
  | succ n ih => exact ih

theorem dimensions_arrayOf (t : FieldType) (n : Nat) : (t.arrayOf n).dimensions = t.dimensions + n := by
  induction n with
  | zero => rfl
  | succ n ih => exact congrArg Nat.succ ih

theorem arrayOf_element (t : FieldType) : t.element.arrayOf t.dimensions = t := by
  induction t with
  | array component ih => exact congrArg array ih
  | _ => rfl

theorem dimensions_element (t : FieldType) : t.element.dimensions = 0 := by
  induction t with
  | array component ih => exact ih
  | _ => rfl

theorem element_element (t : FieldType) : t.element.element = t.element := by
  induction t with
  | array component ih => exact ih
  | _ => rfl

theorem chars_arrayOf (t : FieldType) (n : Nat) :
    (t.arrayOf n).chars = List.replicate n '[' ++ t.chars := by
  induction n with
  | zero => rfl
  | succ n ih =>
    change '[' :: (t.arrayOf n).chars = _
    rw [ih, List.replicate_succ, List.cons_append]

theorem Describable.element (ht : t.Describable) : t.element.Describable where
  dimensions := t.dimensions_element.trans_le (Nat.zero_le _)
  name name h := ht.name name (by rwa [element_element] at h)

theorem Describable.arrayOf (ht : t.Describable) (hdimensions : t.dimensions = 0) (hn : n ≤ 255) :
    (t.arrayOf n).Describable where
  dimensions := by rwa [dimensions_arrayOf, hdimensions, Nat.zero_add]
  name name h := ht.name name (by rwa [element_arrayOf] at h)

theorem chars_eq (t : FieldType) : t.chars = List.replicate t.dimensions '[' ++ t.element.chars := by
  rw [← chars_arrayOf, arrayOf_element]

/-! ### Reading elements -/

theorem isClassName_iff {name : List Char} :
    isClassName name = true ↔ name ≠ [] ∧ '.' ∉ name ∧ '[' ∉ name := by
  simp [isClassName, and_assoc]

/-- A class name goes to the first semicolon. -/
theorem readElement_name {name : List Char} (hname : ';' ∉ name) : readElement ('L' :: (name ++ ';' :: rest)) =
    if isClassName name then some (object (String.ofList name), rest) else none := by
  have hall : ∀ c ∈ name, (c != ';') = true := fun c hc => bne_iff_ne.mpr fun h => hname (h ▸ hc)
  have htake : (name ++ ';' :: rest).takeWhile (· != ';') = name := by
    rw [List.takeWhile_append_of_pos hall, List.takeWhile_cons_of_neg (by simp), List.append_nil]
  have hdrop : (name ++ ';' :: rest).dropWhile (· != ';') = ';' :: rest := by
    rw [List.dropWhile_append_of_pos hall, List.dropWhile_cons_of_neg (by simp)]
  simp only [readElement, htake, hdrop]

theorem readElement_unended (hcs : ';' ∉ cs) : readElement ('L' :: cs) = none := by
  have hdrop : cs.dropWhile (· != ';') = [] :=
    List.dropWhile_eq_nil_iff.mpr fun c hc => bne_iff_ne.mpr fun h => hcs (h ▸ hc)
  simp only [readElement, hdrop]

theorem readElement_object {name : List Char} (hname : NameText name) (rest : List Char) :
    readElement ('L' :: (name ++ ';' :: rest)) = some (object (String.ofList name), rest) := by
  rw [readElement_name hname.semicolon, if_pos (isClassName_iff.mpr ⟨hname.nonempty, hname.dot, hname.bracket⟩)]

/-- The types that are no arrays are read from their texts. -/
theorem readElement_eq_some_iff : readElement cs = some (t, rest) ↔
    t.dimensions = 0 ∧ t.Describable ∧ cs = t.chars ++ rest := by
  constructor
  · intro h
    unfold readElement at h
    split at h
    case h_9 tail =>
      change readElement ('L' :: tail) = _ at h
      by_cases hmem : ';' ∈ tail
      · obtain ⟨name, left, rfl, hname⟩ := List.eq_append_cons_of_mem hmem
        rw [readElement_name hname] at h
        split at h
        · next hvalid =>
          cases h
          obtain ⟨hne, hdot, hbracket⟩ := isClassName_iff.mp hvalid
          refine ⟨rfl, ⟨Nat.zero_le _, ?_⟩, ?_⟩
          · rintro _ ⟨⟩
            rw [String.toList_ofList]
            exact ⟨hne, hdot, hbracket, hname⟩
          · rw [chars, String.toList_ofList, List.cons_append, List.append_assoc, List.singleton_append]
        · cases h
      · rw [readElement_unended hmem] at h
        cases h
    case h_10 => cases h
    all_goals
      cases h
      exact ⟨rfl, ⟨Nat.zero_le _, nofun⟩, rfl⟩
  · rintro ⟨hdimensions, ht, rfl⟩
    cases t with
    | object name =>
      have hread := readElement_object (ht.name name rfl) rest
      rw [String.ofList_toList] at hread
      rw [← hread, chars, List.cons_append, List.append_assoc, List.singleton_append]
    | array component => cases hdimensions
    | _ => rfl

/-! ### Reading types -/

/-- The brackets in front of an element are counted. -/
theorem brackets_chars (ht : t.dimensions = 0) (n : Nat) (rest : List Char) :
    (List.replicate n '[' ++ (t.chars ++ rest)).takeWhile (· == '[') = List.replicate n '[' ∧
      (List.replicate n '[' ++ (t.chars ++ rest)).dropWhile (· == '[') = t.chars ++ rest := by
  have hall : ∀ c ∈ List.replicate n '[', (c == '[') = true := fun c hc =>
    beq_iff_eq.mpr (List.eq_of_mem_replicate hc)
  have hstop : (t.chars ++ rest).takeWhile (· == '[') = [] ∧
      (t.chars ++ rest).dropWhile (· == '[') = t.chars ++ rest := by
    cases t with
    | array component => cases ht
    | _ => exact ⟨rfl, rfl⟩
  rw [List.takeWhile_append_of_pos hall, List.dropWhile_append_of_pos hall, hstop.1, hstop.2, List.append_nil]
  exact ⟨rfl, rfl⟩

/-- **A type is read where its text stands, whatever is behind it.** -/
theorem read_eq_some_iff : read cs = some (t, rest) ↔ t.Describable ∧ cs = t.chars ++ rest := by
  unfold read
  dsimp only
  constructor
  · intro h
    split at h
    · cases h
    · next hle =>
      obtain ⟨⟨u, left⟩, hread, heq⟩ := Option.map_eq_some_iff.1 h
      cases heq
      obtain ⟨hdimensions, hu, hchars⟩ := readElement_eq_some_iff.mp hread
      have hbrackets : cs.takeWhile (· == '[') = List.replicate (cs.takeWhile (· == '[')).length '[' :=
        List.eq_replicate_of_mem fun c hc => eq_of_beq (List.mem_takeWhile_imp (p := (· == '[')) hc)
      refine ⟨hu.arrayOf hdimensions (Nat.le_of_not_lt hle), ?_⟩
      rw [chars_arrayOf, ← hbrackets, List.append_assoc, ← hchars, List.takeWhile_append_dropWhile]
  · rintro ⟨ht, rfl⟩
    obtain ⟨htake, hdrop⟩ := brackets_chars t.dimensions_element t.dimensions rest
    have hcap : ¬ maxDimensions < t.dimensions := Nat.not_lt.mpr ht.dimensions
    have helement : readElement (t.element.chars ++ rest) = some (t.element, rest) :=
      readElement_eq_some_iff.mpr ⟨t.dimensions_element, ht.element, rfl⟩
    rw [chars_eq, List.append_assoc, htake, hdrop, List.length_replicate, helement, if_neg hcap,
      Option.map_some, arrayOf_element]

theorem ofChars?_eq_some_iff : ofChars? cs = some t ↔ t.Describable ∧ t.chars = cs := by
  have hread : read cs = some (t, []) ↔ t.Describable ∧ t.chars = cs := by
    rw [read_eq_some_iff, List.append_nil, eq_comm (a := cs)]
  rw [← hread]
  unfold ofChars?
  constructor
  · intro h
    split at h
    · next heq =>
      cases h
      exact heq
    · cases h
  · intro h
    rw [h]

theorem text_eq_iff {s : String} : t.text = s ↔ t.chars = s.toList := by
  rw [text, ← String.toList_inj, String.toList_ofList]

theorem parse_eq_ok_iff {s : String} : parse s = .ok t ↔ t.Describable ∧ t.text = s := by
  rw [text_eq_iff, ← ofChars?_eq_some_iff]
  unfold parse
  split
  · next h => rw [h, Option.some.injEq, Except.ok.injEq]
  · next h => rw [h]; simp

/-! ### Texts of types -/

theorem elementText_chars (ht : t.Describable) (hdimensions : t.dimensions = 0) : ElementText t.chars := by
  cases t with
  | object name => exact .name (ht.name name rfl)
  | array component => cases hdimensions
  | _ => exact .letter (by decide)

theorem exists_of_elementText (h : ElementText cs) : ∃ t, readElement cs = some (t, []) := by
  cases h with
  | letter hc =>
    have hall : ∀ c ∈ ['B', 'C', 'D', 'F', 'I', 'J', 'S', 'Z'], (readElement [c]).map (·.2) = some [] := by
      simp [readElement]
    obtain ⟨⟨t, rest⟩, hread, rfl⟩ := Option.map_eq_some_iff.mp (hall _ hc)
    exact ⟨t, hread⟩
  | name hname => exact ⟨_, readElement_object hname []⟩

/-- **The grammar has the texts of the types that descriptors can hold.** -/
theorem isFieldDescriptor_iff : IsFieldDescriptor cs ↔ ∃ t : FieldType, t.Describable ∧ t.chars = cs := by
  constructor
  · rintro ⟨n, e, hn, he, rfl⟩
    obtain ⟨t, hread⟩ := exists_of_elementText he
    obtain ⟨hdimensions, ht, rfl⟩ := readElement_eq_some_iff.mp hread
    exact ⟨t.arrayOf n, ht.arrayOf hdimensions hn, by rw [chars_arrayOf, List.append_nil]⟩
  · rintro ⟨t, ht, rfl⟩
    exact ⟨t.dimensions, t.element.chars, ht.dimensions, elementText_chars ht.element t.dimensions_element, t.chars_eq⟩

end FieldType

namespace MethodType

variable {cs rest : List Char} {ts : List FieldType} {m : MethodType} {fuel : Nat}

/-- Whether a descriptor can hold a method type. -/
structure Describable (m : MethodType) : Prop where
  params : ∀ t ∈ m.params, t.Describable
  result : ∀ t ∈ m.result, t.Describable

/-! ### Reading method types -/

theorem describable_of_readParams (h : readParams fuel cs = some (ts, rest)) :
    (∀ t ∈ ts, t.Describable) ∧ cs = ts.flatMap FieldType.chars ++ ')' :: rest := by
  fun_induction readParams fuel cs generalizing ts with
  | case1 =>
    cases h
    exact ⟨nofun, rfl⟩
  | case2 => cases h
  | case3 fuel cs _ t left hread ih =>
    obtain ⟨⟨us, behind⟩, hparams, heq⟩ := Option.map_eq_some_iff.mp h
    cases heq
    obtain ⟨hus, rfl⟩ := ih hparams
    obtain ⟨ht, rfl⟩ := FieldType.read_eq_some_iff.mp hread
    exact ⟨List.forall_mem_cons.mpr ⟨ht, hus⟩, by rw [List.flatMap_cons, List.append_assoc]⟩
  | case4 => cases h

/-- No type begins like the end of the parameters. -/
theorem chars_append_ne (t : FieldType) (cs rest : List Char) : t.chars ++ cs ≠ ')' :: rest := by
  cases t <;> simp [FieldType.chars]

theorem readParams_chars (hts : ∀ t ∈ ts, t.Describable) (hfuel : ts.length ≤ fuel) :
    readParams fuel (ts.flatMap FieldType.chars ++ ')' :: rest) = some (ts, rest) := by
  induction ts generalizing fuel with
  | nil => cases fuel <;> rfl
  | cons t ts ih =>
    obtain ⟨ht, hts⟩ := List.forall_mem_cons.mp hts
    obtain ⟨fuel, rfl⟩ := Nat.exists_eq_succ_of_ne_zero (Nat.ne_of_gt (Nat.zero_lt_of_lt hfuel))
    rw [List.flatMap_cons, List.append_assoc, readParams, FieldType.read_eq_some_iff.mpr ⟨ht, rfl⟩]
    · dsimp only
      rw [ih hts (Nat.le_of_succ_le_succ hfuel), Option.map_some]
    · exact fun rest => chars_append_ne t _ rest

theorem length_le_flatMap (ts : List FieldType) : ts.length ≤ (ts.flatMap FieldType.chars).length := by
  induction ts with
  | nil => exact Nat.zero_le _
  | cons t ts ih =>
    have hpos : 0 < t.chars.length := by cases t <;> simp [FieldType.chars]
    rw [List.flatMap_cons, List.length_append, List.length_cons]
    omega

/-- **Parameters are read up to the parenthesis behind them**, if there is a step for each character. -/
theorem readParams_eq_some_iff (hfuel : cs.length ≤ fuel) : readParams fuel cs = some (ts, rest) ↔
    (∀ t ∈ ts, t.Describable) ∧ cs = ts.flatMap FieldType.chars ++ ')' :: rest := by
  refine ⟨describable_of_readParams, ?_⟩
  rintro ⟨hts, rfl⟩
  refine readParams_chars hts ((length_le_flatMap ts).trans (le_trans ?_ hfuel))
  rw [List.length_append]
  exact Nat.le_add_right _ _

/-- More steps make no difference. -/
theorem readParams_of_le (hfuel : cs.length ≤ fuel) : readParams fuel cs = readParams cs.length cs :=
  Option.ext fun ⟨_, _⟩ => (readParams_eq_some_iff hfuel).trans (readParams_eq_some_iff (Nat.le_refl _)).symm

theorem ofChars?_eq_some_iff : ofChars? cs = some m ↔ m.Describable ∧ m.chars = cs := by
  constructor
  · intro h
    unfold ofChars? at h
    split at h
    · next cs =>
      split at h
      · next params hread =>
        cases h
        obtain ⟨hparams, rfl⟩ := (readParams_eq_some_iff (Nat.le_refl _)).mp hread
        exact ⟨⟨hparams, nofun⟩, rfl⟩
      · next params rest _ hread =>
        obtain ⟨t, hresult, rfl⟩ := Option.map_eq_some_iff.mp h
        obtain ⟨ht, rfl⟩ := FieldType.ofChars?_eq_some_iff.mp hresult
        obtain ⟨hparams, rfl⟩ := (readParams_eq_some_iff (Nat.le_refl _)).mp hread
        exact ⟨⟨hparams, by rintro u ⟨⟩; exact ht⟩, rfl⟩
      · cases h
    · cases h
  · rintro ⟨⟨hparams, hresult⟩, rfl⟩
    obtain ⟨params, result⟩ := m
    have hread : readParams (params.flatMap FieldType.chars ++ ')' :: result.elim ['V'] FieldType.chars).length _ =
        some (params, _) := (readParams_eq_some_iff (Nat.le_refl _)).mpr ⟨hparams, rfl⟩
    rw [chars, ofChars?, hread]
    cases result with
    | none => rfl
    | some t =>
      have hne : t.chars ≠ ['V'] := by cases t <;> simp [FieldType.chars]
      have hresult := FieldType.ofChars?_eq_some_iff.mpr ⟨hresult t rfl, rfl⟩
      dsimp only [Option.elim_some]
      split
      · next heq => exact (hne (Prod.mk.inj (Option.some.inj heq)).2).elim
      · next heq =>
        cases heq
        rw [hresult, Option.map_some]
      · next heq => cases heq

theorem text_eq_iff {s : String} : m.text = s ↔ m.chars = s.toList := by
  rw [text, ← String.toList_inj, String.toList_ofList]

theorem parse_eq_ok_iff {s : String} : parse s = .ok m ↔ m.Describable ∧ m.text = s := by
  rw [text_eq_iff, ← ofChars?_eq_some_iff]
  unfold parse
  split
  · next h => rw [h, Option.some.injEq, Except.ok.injEq]
  · next h => rw [h]; simp

/-! ### Texts of method types -/

theorem exists_flatMap_eq {params : List (List Char)} (h : ∀ p ∈ params, IsFieldDescriptor p) :
    ∃ ts : List FieldType, (∀ t ∈ ts, t.Describable) ∧ ts.flatMap FieldType.chars = params.flatten := by
  induction params with
  | nil => exact ⟨[], nofun, rfl⟩
  | cons p params ih =>
    obtain ⟨hp, hparams⟩ := List.forall_mem_cons.mp h
    obtain ⟨t, ht, rfl⟩ := FieldType.isFieldDescriptor_iff.mp hp
    obtain ⟨ts, hts, heq⟩ := ih hparams
    exact ⟨t :: ts, List.forall_mem_cons.mpr ⟨ht, hts⟩, by rw [List.flatMap_cons, List.flatten_cons, heq]⟩

/-- **The grammar has the texts of the method types that descriptors can hold.** -/
theorem isMethodDescriptor_iff : IsMethodDescriptor cs ↔ ∃ m : MethodType, m.Describable ∧ m.chars = cs := by
  constructor
  · rintro ⟨params, result, hparams, hresult, rfl⟩
    obtain ⟨ts, hts, hflat⟩ := exists_flatMap_eq hparams
    rw [← hflat]
    rcases hresult with rfl | hresult
    · exact ⟨⟨ts, none⟩, ⟨hts, nofun⟩, rfl⟩
    · obtain ⟨t, ht, rfl⟩ := FieldType.isFieldDescriptor_iff.mp hresult
      exact ⟨⟨ts, some t⟩, ⟨hts, by rintro u ⟨⟩; exact ht⟩, rfl⟩
  · rintro ⟨⟨ts, result⟩, ⟨hts, hresult⟩, rfl⟩
    refine ⟨ts.map FieldType.chars, result.elim ['V'] FieldType.chars, ?_, ?_, rfl⟩
    · rw [List.forall_mem_map]
      exact fun t ht => FieldType.isFieldDescriptor_iff.mpr ⟨t, hts t ht, rfl⟩
    · cases result with
      | none => exact .inl rfl
      | some t => exact .inr (FieldType.isFieldDescriptor_iff.mpr ⟨t, hresult t rfl, rfl⟩)

end MethodType

end Jvm.ClassFile
