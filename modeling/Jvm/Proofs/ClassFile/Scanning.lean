import Mathlib
import Jvm.Proofs.ClassFile.Descriptors

/-! # Descriptors at byte positions

Descriptors can also be read by their UTF-8 bytes: a type is looked for at a position among them, and a class
name is cut out of the text between two positions. This comes to the same as reading characters
(`Scan.type_eq`, `Scan.method_eq`), since positions only move over whole characters: no name is torn. With the
grammar, this says which texts are read and as what (`descriptors_exact`). -/

namespace Jvm.ClassFile

/-! ### Bytes of characters -/

/-- The bytes of some characters. -/
def octets (cs : List Char) : List UInt8 := cs.flatMap String.utf8EncodeChar

theorem octets_cons (c : Char) (cs : List Char) : octets (c :: cs) = String.utf8EncodeChar c ++ octets cs :=
  List.flatMap_cons

theorem octets_append (cs ds : List Char) : octets (cs ++ ds) = octets cs ++ octets ds :=
  List.flatMap_append

/-- The only byte of an ASCII character is its code, and those of other characters are not ASCII. -/
theorem utf8EncodeChar_cases (c : Char) : (c.toNat < 128 ∧ String.utf8EncodeChar c = [c.toUInt8]) ∨
    (128 ≤ c.toNat ∧ ∀ b ∈ String.utf8EncodeChar c, 128 ≤ b.toNat) := by
  have hval : c.val.toNat = c.toNat := rfl
  rcases Nat.lt_or_ge c.toNat 128 with hlt | hge
  · refine .inl ⟨hlt, ?_⟩
    rw [String.utf8EncodeChar, if_pos (by omega)]
    rfl
  · refine .inr ⟨hge, ?_⟩
    rw [String.utf8EncodeChar, if_neg (by omega)]
    split_ifs <;> simp <;> omega

theorem octets_cons_ascii {c : Char} (hc : c.toNat < 128) (cs : List Char) :
    octets (c :: cs) = c.toUInt8 :: octets cs := by
  rw [octets_cons]
  rcases utf8EncodeChar_cases c with ⟨-, hencode⟩ | ⟨hge, -⟩
  · rw [hencode, List.singleton_append]
  · omega

theorem length_octets_of_ascii {cs : List Char} (hcs : ∀ c ∈ cs, c.toNat < 128) : (octets cs).length = cs.length := by
  induction cs with
  | nil => rfl
  | cons c cs ih =>
    obtain ⟨hc, hcs⟩ := List.forall_mem_cons.mp hcs
    rw [octets_cons_ascii hc, List.length_cons, List.length_cons, ih hcs]

theorem toNat_ofUInt8 (b : UInt8) : (Char.ofUInt8 b).toNat = b.toNat := by
  simp [Char.ofUInt8, Char.toNat]

theorem ofUInt8_toUInt8 {c : Char} (hc : c.toNat < 128) : Char.ofUInt8 c.toUInt8 = c := by
  apply Char.ext
  apply UInt32.toNat_inj.mp
  change (Char.ofUInt8 c.toUInt8).toNat = c.toNat
  rw [toNat_ofUInt8, Char.toUInt8, UInt32.toNat_toUInt8]
  exact Nat.mod_eq_of_lt (hc.trans (by decide))

section

variable {a : Char} (ha : a.toNat < 128)
include ha

/-- An ASCII character is in front exactly if its byte is. -/
theorem head?_octets_iff {cs : List Char} : (octets cs).head?.map Char.ofUInt8 = some a ↔ cs.head? = some a := by
  cases cs with
  | nil => simp [octets]
  | cons c cs =>
    rw [octets_cons, List.head?_cons, Option.some.injEq]
    rcases utf8EncodeChar_cases c with ⟨hc, hencode⟩ | ⟨hc, hencode⟩
    · rw [hencode, List.singleton_append, List.head?_cons, Option.map_some, ofUInt8_toUInt8 hc, Option.some.injEq]
    · obtain ⟨b, bs, hbs⟩ := List.exists_cons_of_ne_nil (String.utf8EncodeChar_ne_nil (c := c))
      have hb : 128 ≤ b.toNat := hencode b (hbs ▸ List.mem_cons_self)
      rw [hbs, List.cons_append, List.head?_cons, Option.map_some, Option.some.injEq]
      constructor
      · rintro rfl
        rw [toNat_ofUInt8] at ha
        omega
      · rintro rfl
        omega

theorem length_takeWhile_octets (cs : List Char) :
    ((octets cs).takeWhile (· == a.toUInt8)).length = (cs.takeWhile (· == a)).length := by
  induction cs with
  | nil => rfl
  | cons c cs ih =>
    by_cases hc : c = a
    · subst hc
      rw [octets_cons_ascii ha, List.takeWhile_cons_of_pos (by simp), List.takeWhile_cons_of_pos (by simp),
        List.length_cons, List.length_cons, ih]
    · rw [List.takeWhile_cons_of_neg (by simpa using hc)]
      cases hoctets : octets (c :: cs) with
      | nil => rfl
      | cons b bs =>
        have hb : b ≠ a.toUInt8 := by
          rintro rfl
          have hhead : (c :: cs).head? = some a := (head?_octets_iff ha).mp (by
            rw [hoctets, List.head?_cons, Option.map_some, ofUInt8_toUInt8 ha])
          exact hc (Option.some.inj hhead)
        rw [List.takeWhile_cons_of_neg (by simpa using hb)]
        rfl

/-- An ASCII character occurs exactly if its byte does. -/
theorem mem_octets_iff {cs : List Char} : a.toUInt8 ∈ octets cs ↔ a ∈ cs := by
  have hinj {c : Char} (hc : c.toNat < 128) : a.toUInt8 = c.toUInt8 ↔ a = c := by
    constructor
    · intro h
      rw [← ofUInt8_toUInt8 ha, h, ofUInt8_toUInt8 hc]
    · rintro rfl
      rfl
  have hbyte : a.toUInt8.toNat < 128 := by
    rw [← toNat_ofUInt8, ofUInt8_toUInt8 ha]
    exact ha
  induction cs with
  | nil => simp [octets]
  | cons c cs ih =>
    rw [octets_cons, List.mem_append, List.mem_cons]
    refine or_congr ?_ ih
    rcases utf8EncodeChar_cases c with ⟨hc, hencode⟩ | ⟨hc, hencode⟩
    · rw [hencode, List.mem_singleton, hinj hc]
    · constructor
      · intro hmem
        have := hencode _ hmem
        omega
      · rintro rfl
        omega

theorem findIdx?_octets_of_not_mem {cs : List Char} (h : a ∉ cs) :
    (octets cs).findIdx? (· == a.toUInt8) = none :=
  List.findIdx?_eq_none_iff.mpr fun _ hb => beq_false_of_ne fun heq => h ((mem_octets_iff ha).mp (heq ▸ hb))

/-- The first byte of an ASCII character is where the character is first. -/
theorem findIdx?_octets {cs : List Char} (h : a ∉ cs) (left : List Char) :
    (octets (cs ++ a :: left)).findIdx? (· == a.toUInt8) = some (octets cs).length := by
  rw [octets_append, octets_cons_ascii ha, List.findIdx?_append, findIdx?_octets_of_not_mem ha h, Option.none_or,
    List.findIdx?_cons, if_pos BEq.rfl]
  simp

end

theorem octets_eq_nil_iff {cs : List Char} : octets cs = [] ↔ cs = [] := by
  cases cs with
  | nil => simp [octets]
  | cons c cs => simp [octets_cons]

theorem length_le_octets (cs : List Char) : cs.length ≤ (octets cs).length := by
  induction cs with
  | nil => exact Nat.zero_le _
  | cons c cs ih =>
    have hpos := List.length_pos_of_ne_nil (String.utf8EncodeChar_ne_nil (c := c))
    rw [octets_cons, List.length_append, List.length_cons]
    omega

/-! ### Reading at positions -/

/-- Why no type is read. -/
inductive Unread where
  | malformed
  | torn
deriving DecidableEq, Repr

namespace Scan

/-- The bytes of a text. -/
def bytes (s : String) : List UInt8 := s.toByteArray.data.toList

/-- The byte at a position, as the character with this code. -/
def byteAt? (s : String) (pos : Nat) : Option Char := (bytes s)[pos]?.map Char.ofUInt8

/-- The text between two positions, neither of which may be inside a character. -/
def slice (s : String) (start stop : Nat) : Except Unread String :=
  if h : (String.Pos.Raw.mk start).IsValid s ∧ (String.Pos.Raw.mk stop).IsValid s ∧ start ≤ stop then
    .ok (s.extract ⟨_, h.1⟩ ⟨_, h.2.1⟩)
  else .error .torn

example : slice "LÄ;" 1 2 = .error .torn := by decide

/-- Reads a class name that begins at a position, up to the first semicolon. -/
def object (s : String) (start : Nat) : Except Unread (FieldType × Nat) :=
  match ((bytes s).drop start).findIdx? (· == ';'.toUInt8) with
  | none => .error .malformed
  | some length => do
    let name ← slice s start (start + length)
    if FieldType.isClassName name.toList then return (.object name, start + length + 1) else throw .malformed

/-- Reads a type that is no array. -/
def element (s : String) (pos : Nat) : Except Unread (FieldType × Nat) :=
  match byteAt? s pos with
  | some 'B' => .ok (.byte, pos + 1)
  | some 'C' => .ok (.char, pos + 1)
  | some 'D' => .ok (.double, pos + 1)
  | some 'F' => .ok (.float, pos + 1)
  | some 'I' => .ok (.int, pos + 1)
  | some 'J' => .ok (.long, pos + 1)
  | some 'S' => .ok (.short, pos + 1)
  | some 'Z' => .ok (.boolean, pos + 1)
  | some 'L' => object s (pos + 1)
  | _ => .error .malformed

/-- Reads a type: the number of brackets, and what is behind them. -/
def field (s : String) (start : Nat) : Except Unread (FieldType × Nat) := do
  let dimensions := (((bytes s).drop start).takeWhile (· == '['.toUInt8)).length
  if FieldType.maxDimensions < dimensions then throw .malformed
  let (t, stop) ← element s (start + dimensions)
  return (t.arrayOf dimensions, stop)

/-- Reads types up to the closing parenthesis; `fuel` bounds their number. -/
def params (s : String) (fuel pos : Nat) : Except Unread (List FieldType × Nat) :=
  if byteAt? s pos = some ')' then .ok ([], pos + 1)
  else
    match fuel with
    | 0 => .error .malformed
    | fuel + 1 => do
      let (t, next) ← field s pos
      let (ts, stop) ← params s fuel next
      return (t :: ts, stop)

/-- Reads a type from all bytes behind a position. -/
def type (s : String) (pos : Nat) : Except Unread FieldType := do
  let (t, stop) ← field s pos
  if stop = (bytes s).length then return t else throw .malformed

/-- Reads the result of a method type from all bytes behind a position. -/
def result (s : String) (params : List FieldType) (pos : Nat) : Except Unread MethodType :=
  if byteAt? s pos = some 'V' then
    if pos + 1 = (bytes s).length then .ok ⟨params, none⟩ else .error .malformed
  else do return ⟨params, some (← type s pos)⟩

/-- Reads a method type from all bytes. -/
def method (s : String) : Except Unread MethodType :=
  if byteAt? s 0 = some '(' then do
    let (params, pos) ← params s (bytes s).length 1
    result s params pos
  else .error .malformed

/-! ### Positions between characters -/

variable {s : String} {pos : Nat} {cs : List Char} {c : Char}

theorem bytes_eq (s : String) : bytes s = octets s.toList := by
  rw [bytes, ← String.utf8Encode_toList, List.utf8Encode, List.data_toByteArray]
  rfl

theorem bytes_ofList (cs : List Char) : bytes (String.ofList cs) = octets cs := by
  rw [bytes_eq, String.toList_ofList]

theorem bytes_injective : Function.Injective bytes := fun _ _ h =>
  String.toByteArray_inj.mp (ByteArray.ext (Array.toList_inj.mp h))

/-- Whether some characters are all that is behind a position. -/
def Behind (s : String) (pos : Nat) (cs : List Char) : Prop :=
  ∃ front, s.toList = front ++ cs ∧ pos = (octets front).length

theorem behind_zero (s : String) : Behind s 0 s.toList := ⟨[], rfl, rfl⟩

namespace Behind

theorem append {ds : List Char} (h : Behind s pos (ds ++ cs)) : Behind s (pos + (octets ds).length) cs := by
  obtain ⟨front, hs, rfl⟩ := h
  exact ⟨front ++ ds, by rw [hs, List.append_assoc], by rw [octets_append, List.length_append]⟩

theorem next (h : Behind s pos (c :: cs)) (hc : c.toNat < 128) : Behind s (pos + 1) cs := by
  have hlength : (octets [c]).length = 1 := by rw [octets_cons_ascii hc]; rfl
  rw [← hlength]
  exact append h

theorem drop_bytes (h : Behind s pos cs) : (bytes s).drop pos = octets cs := by
  obtain ⟨front, hs, rfl⟩ := h
  rw [bytes_eq, hs, octets_append, List.drop_left]

/-- An ASCII byte at a position is the character behind it. -/
theorem byteAt?_iff (h : Behind s pos cs) (hc : c.toNat < 128) : byteAt? s pos = some c ↔ ∃ left, cs = c :: left := by
  rw [byteAt?, ← List.head?_eq_some_iff, ← head?_octets_iff hc, ← h.drop_bytes, List.head?_drop]

/-- The end of the text is the position that nothing is behind. -/
theorem eq_length_iff (h : Behind s pos cs) : pos = (bytes s).length ↔ cs = [] := by
  obtain ⟨front, hs, rfl⟩ := h
  rw [bytes_eq, hs, octets_append, List.length_append, ← octets_eq_nil_iff, ← List.length_eq_zero_iff]
  omega

theorem isValid (h : Behind s pos cs) : (String.Pos.Raw.mk pos).IsValid s := by
  obtain ⟨front, hs, rfl⟩ := h
  refine String.Pos.Raw.isValid_iff_exists_append.mpr ⟨.ofList front, .ofList cs, ?_, ?_⟩
  · rw [← String.ofList_append, ← hs, String.ofList_toList]
  · rw [← bytes_ofList]
    rfl

/-- **What is cut out between characters is not torn.** -/
theorem slice_eq {name : List Char} (h : Behind s pos (name ++ cs)) :
    slice s pos (pos + (octets name).length) = .ok (String.ofList name) := by
  rw [slice, dif_pos ⟨h.isValid, h.append.isValid, Nat.le_add_right _ _⟩]
  refine congrArg Except.ok (bytes_injective ?_)
  rw [bytes_ofList, bytes, String.toByteArray_extract, ByteArray.data_extract, Array.toList_extract,
    List.extract_eq_take_drop, Nat.add_sub_cancel_left]
  change ((bytes s).drop pos).take _ = _
  rw [h.drop_bytes, octets_append, List.take_left]

end Behind

/-! ### Agreement with reading characters -/

/-- Whether reading by bytes comes to what reading characters comes to, at the position behind which the same
characters are left. -/
inductive Agrees {α : Type} (s : String) : Except Unread (α × Nat) → Option (α × List Char) → Prop
  | read {a : α} {pos : Nat} {left : List Char} (h : Behind s pos left) : Agrees s (.ok (a, pos)) (some (a, left))
  | malformed : Agrees s (.error .malformed) none

theorem Agrees.eq_ok {α : Type} {x : Except Unread (α × Nat)} {a : α} {left : List Char}
    (h : Agrees s x (some (a, left))) : ∃ pos, x = .ok (a, pos) ∧ Behind s pos left := by
  cases h with
  | read h => exact ⟨_, rfl, h⟩

theorem Agrees.eq_error {α : Type} {x : Except Unread (α × Nat)} (h : Agrees s x none) : x = .error .malformed := by
  cases h
  rfl

theorem Agrees.map {α β : Type} {x : Except Unread (α × Nat)} {o : Option (α × List Char)} (h : Agrees s x o)
    (f : α → β) : Agrees s (do let (a, stop) ← x; return (f a, stop)) (o.map fun (a, left) => (f a, left)) := by
  cases h with
  | read h => exact .read h
  | malformed => exact .malformed

theorem agrees_object (h : Behind s pos cs) : Agrees s (object s pos) (FieldType.readElement ('L' :: cs)) := by
  unfold object
  rw [h.drop_bytes]
  by_cases hmem : ';' ∈ cs
  · obtain ⟨name, left, rfl, hname⟩ := List.eq_append_cons_of_mem hmem
    rw [findIdx?_octets (by decide) hname, FieldType.readElement_name hname]
    dsimp only
    rw [h.slice_eq]
    change Agrees s (if FieldType.isClassName (String.ofList name).toList then _ else _) _
    rw [String.toList_ofList]
    split
    · exact .read (h.append.next (by decide))
    · exact .malformed
  · rw [findIdx?_octets_of_not_mem (by decide) hmem, FieldType.readElement_unended hmem]
    exact .malformed

theorem agrees_element (h : Behind s pos cs) : Agrees s (element s pos) (FieldType.readElement cs) := by
  unfold FieldType.readElement
  split
  case h_9 tail =>
    rw [element, (h.byteAt?_iff (by decide)).mpr ⟨_, rfl⟩]
    exact agrees_object (h.next (by decide))
  case h_10 =>
    -- no byte of a letter is there without the letter
    unfold element
    split
    case h_10 => exact .malformed
    all_goals
      next heq =>
        obtain ⟨left, rfl⟩ := (h.byteAt?_iff (by decide)).mp heq
        simp at *
  all_goals
    rw [element, (h.byteAt?_iff (by decide)).mpr ⟨_, rfl⟩]
    exact .read (h.next (by decide))

theorem agrees_field (h : Behind s pos cs) : Agrees s (field s pos) (FieldType.read cs) := by
  have hbehind : Behind s (pos + (cs.takeWhile (· == '[')).length) (cs.dropWhile (· == '[')) := by
    have hascii : ∀ c ∈ cs.takeWhile (· == '['), c.toNat < 128 := fun c hc => by
      rw [eq_of_beq (List.mem_takeWhile_imp (p := (· == '[')) hc)]
      decide
    rw [← length_octets_of_ascii hascii]
    exact Behind.append (by rwa [List.takeWhile_append_dropWhile])
  unfold field FieldType.read
  rw [h.drop_bytes, length_takeWhile_octets (by decide)]
  dsimp only
  split
  · exact .malformed
  · exact (agrees_element hbehind).map fun t => t.arrayOf _

theorem agrees_params (fuel : Nat) (h : Behind s pos cs) :
    Agrees s (params s fuel pos) (MethodType.readParams fuel cs) := by
  have hend {cs : List Char} {pos : Nat} (h : Behind s pos cs) (hcs : ∀ left, cs = ')' :: left → False) :
      byteAt? s pos ≠ some ')' := fun hbyte => by
    obtain ⟨left, rfl⟩ := (h.byteAt?_iff (by decide)).mp hbyte
    exact hcs left rfl
  fun_induction MethodType.readParams fuel cs generalizing pos with
  | case1 =>
    rw [params.eq_def, if_pos ((h.byteAt?_iff (by decide)).mpr ⟨_, rfl⟩)]
    exact .read (h.next (by decide))
  | case2 cs hcs =>
    rw [params, if_neg (hend h hcs)]
    exact .malformed
  | case3 fuel cs hcs t left hread ih =>
    obtain ⟨next, hnext, hleft⟩ := (hread ▸ agrees_field h).eq_ok
    rw [params, if_neg (hend h hcs), hnext]
    exact (ih hleft).map (t :: ·)
  | case4 fuel cs hcs hread =>
    have herror := (hread ▸ agrees_field h).eq_error
    rw [params, if_neg (hend h hcs), herror]
    exact .malformed

/-- **Reading a type by its bytes is reading its characters.** -/
theorem type_eq (h : Behind s pos cs) : type s pos = (FieldType.ofChars? cs).elim (.error .malformed) .ok := by
  unfold type FieldType.ofChars?
  have hfield := agrees_field h
  cases hread : FieldType.read cs with
  | none =>
    rw [hread] at hfield
    rw [hfield.eq_error]
    rfl
  | some read =>
    obtain ⟨t, left⟩ := read
    rw [hread] at hfield
    obtain ⟨stop, hstop, hleft⟩ := hfield.eq_ok
    rw [hstop]
    change (if stop = (bytes s).length then Except.ok t else .error Unread.malformed) = _
    cases left with
    | nil => rw [if_pos (hleft.eq_length_iff.mpr rfl)]; rfl
    | cons c left => rw [if_neg (hleft.eq_length_iff.not.mpr (List.cons_ne_nil c left))]; rfl

theorem result_void (ps : List FieldType) (h : Behind s pos ['V']) : result s ps pos = .ok ⟨ps, none⟩ := by
  rw [result, if_pos ((h.byteAt?_iff (by decide)).mpr ⟨_, rfl⟩), if_pos ((h.next (by decide)).eq_length_iff.mpr rfl)]

theorem result_type (ps : List FieldType) (h : Behind s pos cs) (hcs : cs ≠ ['V']) : result s ps pos =
    ((FieldType.ofChars? cs).map fun t => MethodType.mk ps (some t)).elim (.error .malformed) .ok := by
  unfold result
  split
  · next hbyte =>
    -- no type begins like this
    obtain ⟨left, rfl⟩ := (h.byteAt?_iff (by decide)).mp hbyte
    have hleft : left ≠ [] := fun hleft => hcs (hleft ▸ rfl)
    rw [if_neg ((h.next (by decide)).eq_length_iff.not.mpr hleft)]
    rfl
  · rw [type_eq h]
    cases FieldType.ofChars? cs <;> rfl

/-- **Reading a method type by its bytes is reading its characters.** -/
theorem method_eq (s : String) : method s = (MethodType.ofChars? s.toList).elim (.error .malformed) .ok := by
  have h := behind_zero s
  unfold method
  split
  · next hbyte =>
    obtain ⟨cs, hcs⟩ := (h.byteAt?_iff (by decide)).mp hbyte
    rw [hcs] at h
    have hfuel : cs.length ≤ (bytes s).length := by
      rw [bytes_eq, hcs]
      exact (Nat.le_succ _).trans (length_le_octets ('(' :: cs))
    have hparams := agrees_params (bytes s).length (h.next (by decide))
    rw [MethodType.readParams_of_le hfuel] at hparams
    rw [hcs, MethodType.ofChars?]
    split
    · next ps hread =>
      obtain ⟨stop, hstop, hleft⟩ := (hread ▸ hparams).eq_ok
      rw [hstop]
      exact result_void ps hleft
    · next ps left hne hread =>
      obtain ⟨stop, hstop, hleft⟩ := (hread ▸ hparams).eq_ok
      rw [hstop]
      exact result_type ps hleft hne
    · next hread =>
      rw [hread] at hparams
      rw [hparams.eq_error]
      rfl
  · next hbyte =>
    unfold MethodType.ofChars?
    split
    · next cs hcs => exact (hbyte ((h.byteAt?_iff (by decide)).mpr ⟨cs, hcs⟩)).elim
    · rfl

end Scan

/-! ### Exactness -/

theorem FieldType.scan_eq (s : String) : Scan.type s 0 = (parse s).mapError fun _ => .malformed := by
  rw [Scan.type_eq (Scan.behind_zero s), parse]
  cases ofChars? s.toList <;> rfl

theorem MethodType.scan_eq (s : String) : Scan.method s = (parse s).mapError fun _ => .malformed := by
  rw [Scan.method_eq, parse]
  cases ofChars? s.toList <;> rfl

/-- **The texts of the grammar are read, and no others, as the types that write them**; reading their bytes comes
to the same, and never to a torn name. -/
theorem descriptors_exact (s : String) :
    ((∃ t, FieldType.parse s = .ok t) ↔ IsFieldDescriptor s.toList) ∧
    ((∃ m, MethodType.parse s = .ok m) ↔ IsMethodDescriptor s.toList) ∧
    (∀ t, FieldType.parse s = .ok t ↔ t.Describable ∧ t.text = s) ∧
    (∀ m, MethodType.parse s = .ok m ↔ m.Describable ∧ m.text = s) ∧
    Scan.type s 0 = ((FieldType.parse s).mapError fun _ => .malformed) ∧
    Scan.method s = (MethodType.parse s).mapError fun _ => .malformed := by
  refine ⟨?_, ?_, fun t => FieldType.parse_eq_ok_iff, fun m => MethodType.parse_eq_ok_iff, FieldType.scan_eq s,
    MethodType.scan_eq s⟩
  · rw [FieldType.isFieldDescriptor_iff]
    exact exists_congr fun t => FieldType.parse_eq_ok_iff.trans (and_congr_right' FieldType.text_eq_iff)
  · rw [MethodType.isMethodDescriptor_iff]
    exact exists_congr fun m => MethodType.parse_eq_ok_iff.trans (and_congr_right' MethodType.text_eq_iff)

example : Scan.method "([LÄ/€;)V" = .ok ⟨[.array (.object "Ä/€")], none⟩ := by cbv

end Jvm.ClassFile
