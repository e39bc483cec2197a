import Mathlib
import Jvm.Bytecode.InstructionSet
import Jvm.Proofs.Execution.Fitting

/-! # The operand stack in words

An operand stack is a sequence of words (`words`), in which a long or a double is two that belong together.
The instructions that copy words are described by what they do to this sequence (`duplicate?`): they put a
copy of the words on top beneath some words below them, and fail if there are too few words or if a long
or a double would be split. A stack is determined by its words (`words_injective`).

The code pops whole values until they count for enough words, and complains if they count for too many:
`popWords_cases`. The main statement is `wordSemantics`. -/

namespace Jvm.Execution

open Bytecode Linking

/-! ### Words -/

/-- A word of an operand stack. -/
inductive Word where
  | whole (v : Value)
  | upper (v : Value)
  | lower (v : Value)
deriving DecidableEq, Inhabited, Repr

/-- The words of a value, the upper one first. -/
def wordsOf (v : Value) : List Word := if v.isWide then [.upper v, .lower v] else [.whole v]

/-- The words of some values, the top first. -/
def words (vs : List Value) : List Word := vs.flatMap wordsOf

/-- Whether the boundary beneath the top `n` words falls inside a long or a double. -/
def Splits (ws : List Word) (n : Nat) : Prop := ∃ v, ws[n]? = some (.lower v)

instance (ws : List Word) (n : Nat) : Decidable (Splits ws n) :=
  match h : ws[n]? with
  | some (.lower v) => isTrue ⟨v, h⟩
  | some (.whole _) | some (.upper _) => isFalse fun ⟨_, hv⟩ => by rw [h] at hv; cases hv
  | none => isFalse fun ⟨_, hv⟩ => by rw [h] at hv; cases hv

/-- The number of values that words make up. -/
def valueCount (ws : List Word) : Nat := ws.countP fun
  | .lower _ => false
  | _ => true

/-- The words after a copy of the top `copied` ones has been put beneath the `skipped` ones below them. -/
def duplicate (copied skipped : Nat) (ws : List Word) : List Word :=
  ws.take copied ++ (ws.drop copied).take skipped ++ ws.take copied ++ ws.drop (copied + skipped)

/-- The words after a copy, if there are enough and none is split. -/
def duplicate? (copied skipped : Nat) (ws : List Word) : Option (List Word) :=
  if copied + skipped ≤ ws.length ∧ ¬ Splits ws copied ∧ ¬ Splits ws (copied + skipped) then
    some (duplicate copied skipped ws)
  else none

/-- The words without the top `n` ones, if there are enough and none is split. -/
def discard? (n : Nat) (ws : List Word) : Option (List Word) :=
  if n ≤ ws.length ∧ ¬ Splits ws n then some (ws.drop n) else none

@[simp] theorem words_nil : words [] = [] := rfl

theorem words_cons (v : Value) (vs : List Value) : words (v :: vs) = wordsOf v ++ words vs := rfl

theorem words_append (vs ws : List Value) : words (vs ++ ws) = words vs ++ words ws :=
  List.flatMap_append

theorem words_cons_wide {v : Value} (hv : v.isWide = true) (vs : List Value) :
    words (v :: vs) = .upper v :: .lower v :: words vs := by
  rw [words_cons, wordsOf, if_pos hv]
  rfl

theorem words_cons_narrow {v : Value} (hv : ¬ v.isWide = true) (vs : List Value) :
    words (v :: vs) = .whole v :: words vs := by
  rw [words_cons, wordsOf, if_neg hv]
  rfl

/-- Words tell the values that they make up. -/
theorem words_injective : Function.Injective words := by
  intro vs
  induction vs with
  | nil =>
    rintro (_ | ⟨w, ws⟩) h
    · rfl
    · by_cases hw : w.isWide = true
      · rw [words_cons_wide hw] at h
        cases h
      · rw [words_cons_narrow hw] at h
        cases h
  | cons v vs ih =>
    rintro (_ | ⟨w, ws⟩) h
    all_goals by_cases hv : v.isWide = true
    · rw [words_cons_wide hv] at h
      cases h
    · rw [words_cons_narrow hv] at h
      cases h
    all_goals by_cases hw : w.isWide = true
    · rw [words_cons_wide hv, words_cons_wide hw] at h
      injection h with hvw h
      injection h with _ h
      rw [Word.upper.inj hvw, ih h]
    · rw [words_cons_wide hv, words_cons_narrow hw] at h
      cases h
    · rw [words_cons_narrow hv, words_cons_wide hw] at h
      cases h
    · rw [words_cons_narrow hv, words_cons_narrow hw] at h
      injection h with hvw h
      rw [Word.whole.inj hvw, ih h]

theorem valueCount_append (ws us : List Word) :
    valueCount (ws ++ us) = valueCount ws + valueCount us :=
  List.countP_append

theorem valueCount_words (vs : List Value) : valueCount (words vs) = vs.length := by
  induction vs with
  | nil => rfl
  | cons v vs ih =>
    rw [words_cons, valueCount_append, ih, wordsOf]
    split <;> simp [valueCount, Nat.add_comm]

/-- The boundary beneath whole values splits nothing. -/
theorem not_splits_of_append (vs rest : List Value) :
    ¬ Splits (words (vs ++ rest)) (words vs).length := by
  rintro ⟨v, hv⟩
  rw [words_append, List.getElem?_append_right le_rfl, Nat.sub_self] at hv
  rcases rest with _ | ⟨w, rest⟩
  · cases hv
  · by_cases hw : w.isWide = true
    · rw [words_cons_wide hw] at hv
      cases hv
    · rw [words_cons_narrow hw] at hv
      cases hv

/-! ### Taking words from a frame -/

namespace Frame

theorem pop_of_cons {f : Frame} {v : Value} {rest : List Value} (hf : f.stack.list = v :: rest) :
    pop f = .ok v { f with stack := f.stack.pop } := by
  have htop : f.stack.top? = some v := by rw [Stack.top?, hf, List.head?_cons]
  rw [pop, bind_of_ok (show (get : OnFrame Frame) f = .ok f f from rfl), htop]
  rfl

theorem pop_of_nil {f : Frame} (hf : f.stack.list = []) :
    pop f = .error (f.fault "operand stack underflow") f := by
  have htop : f.stack.top? = none := by rw [Stack.top?, hf, List.head?_nil]
  rw [pop, bind_of_ok (show (get : OnFrame Frame) f = .ok f f from rfl), htop]
  rfl

/-- How words are taken from a frame: some values on top make up the words, or there are too few words or
a value would be split. -/
inductive Takes (n : Nat) (f : Frame) : Prop
  | taken (vs rest : List Value) (hlist : f.stack.list = vs ++ rest) (hn : (words vs).length = n)
    (hpop : popWords n f = .ok vs.reverse { f with stack := f.stack.drop vs.length }) : Takes n f
  | refused (hn : (words f.stack.list).length < n ∨ Splits (words f.stack.list) n)
    (hpop : ∃ e f', popWords n f = .error e f') : Takes n f

/-- The values taken behind the one on top go with it. -/
theorem takes_behind {f : Frame} {v : Value} {rest : List Value} {n : Nat}
    (hf : f.stack.list = v :: rest) {k : Nat} (hk : (wordsOf v).length = k)
    (hpop : popWords (n + k) f = (do return (← popWords n) ++ [v] : OnFrame (List Value))
      { f with stack := f.stack.pop })
    (h : Takes n { f with stack := f.stack.pop }) : Takes (n + k) f := by
  have htail : ({ f with stack := f.stack.pop } : Frame).stack.list = rest := by
    rw [Stack.list_pop, hf, List.tail_cons]
  cases h with
  | taken vs rest' hlist hn hpops =>
    rw [htail] at hlist
    refine .taken (v :: vs) rest' (by rw [hf, hlist, List.cons_append]) ?_ ?_
    · rw [words_cons, List.length_append, hn, hk, Nat.add_comm]
    · rw [hpop, bind_of_ok hpops, List.reverse_cons]
      have hstack : (f.stack.pop.drop vs.length) = f.stack.drop (v :: vs).length :=
        Stack.ext_list (by rw [Stack.list_drop, Stack.list_pop, Stack.list_drop, hf]; rfl)
      rw [← hstack]
      rfl
  | refused hn hpops =>
    rw [htail] at hn
    obtain ⟨e, f', hpops⟩ := hpops
    refine .refused ?_ ⟨e, f', hpop.trans (bind_of_error hpops)⟩
    rw [hf, words_cons, List.length_append, hk]
    refine hn.imp (by omega) ?_
    rintro ⟨w, hw⟩
    exact ⟨w, by rw [List.getElem?_append_right (by omega), hk, Nat.add_sub_cancel]; exact hw⟩

theorem takes (n : Nat) (f : Frame) : Takes n f := by
  induction n using Nat.strongRecOn generalizing f with
  | ind n ih =>
    rcases n with _ | n
    · exact .taken [] f.stack.list rfl rfl (by
        have hstack : f.stack.drop ([] : List Value).length = f.stack := Stack.ext_list rfl
        rw [hstack]
        rfl)
    rcases hf : f.stack.list with _ | ⟨v, rest⟩
    · have hpop : popWords (n + 1) f = .error (f.fault "operand stack underflow") f := by
        rw [popWords, bind_of_error (pop_of_nil hf)]
      exact .refused (.inl (by rw [hf]; exact n.succ_pos)) ⟨_, _, hpop⟩
    by_cases hv : v.isWide = true
    · rcases n with _ | n
      -- The loop has gone past the one word that was left to take.
      · have hpop : popWords 1 f = refuse "stack shuffle splits a category 2 value"
            { f with stack := f.stack.pop } := by
          rw [popWords, bind_of_ok (pop_of_cons hf), if_pos hv]
        exact .refused (.inr ⟨v, by rw [hf, words_cons_wide hv]; rfl⟩) ⟨_, _, hpop⟩
      · refine takes_behind (k := 2) hf (by rw [wordsOf, if_pos hv]; rfl) ?_ (ih n (by omega) _)
        rw [popWords, bind_of_ok (pop_of_cons hf), if_pos hv]
    · refine takes_behind (k := 1) hf (by rw [wordsOf, if_neg hv]; rfl) ?_ (ih n (by omega) _)
      rw [popWords, bind_of_ok (pop_of_cons hf), if_neg hv]

/-- Values are pushed if there is room for them. -/
theorem pushAll_of_room (vs : List Value) {f : Frame}
    (hroom : f.stack.list.length + vs.length ≤ f.code.maxStack) :
    ∃ stack, pushAll vs f = .ok () { f with stack } ∧ stack.list = vs.reverse ++ f.stack.list := by
  induction vs generalizing f with
  | nil => exact ⟨f.stack, rfl, rfl⟩
  | cons v vs ih =>
    rw [List.length_cons] at hroom
    have hpush : push v f = .ok () { f with stack := f.stack.push v } :=
      push_of_room v (by rw [f.stack.size_eq]; omega)
    obtain ⟨stack, hall, hlist⟩ := ih (f := { f with stack := f.stack.push v })
      (by rw [Stack.list_push, List.length_cons]; dsimp only; omega)
    refine ⟨stack, ?_, ?_⟩
    · change (push v >>= fun _ => pushAll vs) f = _
      rw [bind_of_ok hpush, hall]
    · rw [hlist, Stack.list_push, List.reverse_cons, List.append_assoc]
      rfl

/-! ### Copying words -/

/-- What a computation on a frame does to the words of the operand stack, if there is room for what is left
in the end: it succeeds exactly if that is something, and changes nothing else. -/
def Shuffles (x : OnFrame Target) (result? : List Word → Option (List Word)) : Prop :=
  ∀ f : Frame, (∀ ws ∈ result? (words f.stack.list), valueCount ws ≤ f.code.maxStack) →
    match x f with
    | .ok target f' => target = none ∧ f' = { f with stack := f'.stack } ∧
      result? (words f.stack.list) = some (words f'.stack.list)
    | .error _ _ => result? (words f.stack.list) = none

/-- What a computation ends in, an instruction that does it and goes on ends in. -/
theorem shuffles_next {x : OnFrame Unit} {result? : List Word → Option (List Word)}
    (h : ∀ f : Frame, (∀ ws ∈ result? (words f.stack.list), valueCount ws ≤ f.code.maxStack) →
      (∃ stack, x f = .ok () { f with stack } ∧
        result? (words f.stack.list) = some (words stack.list)) ∨
      (∃ e f', x f = .error e f') ∧ result? (words f.stack.list) = none) :
    Shuffles (do x; return none) result? := by
  intro f hroom
  rcases h f hroom with ⟨stack, hx, hresult⟩ | ⟨⟨e, f', hx⟩, hresult⟩
  · rw [bind_of_ok hx]
    exact ⟨rfl, rfl, hresult⟩
  · rw [bind_of_error hx]
    exact hresult

section

variable {n m : Nat} {ws : List Word}

theorem discard?_of_refused (h : ws.length < n ∨ Splits ws n) : discard? n ws = none :=
  if_neg fun hboth => h.elim (fun hfew => hfew.not_ge hboth.1) fun hsplits => hboth.2 hsplits

theorem duplicate?_of_refused (h : ws.length < n ∨ Splits ws n) : duplicate? n m ws = none :=
  if_neg fun hall => h.elim (fun hfew => by omega) fun hsplits => hall.2.1 hsplits

theorem duplicate?_of_refused_below (us : List Word) (h : ws.length < m ∨ Splits ws m) :
    duplicate? us.length m (us ++ ws) = none := by
  refine if_neg fun hall => ?_
  obtain ⟨henough, -, hwhole⟩ := hall
  rcases h with hfew | ⟨v, hv⟩
  · rw [List.length_append] at henough
    omega
  · refine hwhole ⟨v, ?_⟩
    rw [List.getElem?_append_right (Nat.le_add_right _ _), Nat.add_sub_cancel_left]
    exact hv

end

theorem discard?_words (vs rest : List Value) :
    discard? (words vs).length (words (vs ++ rest)) = some (words rest) := by
  have hlength : (words vs).length ≤ (words (vs ++ rest)).length := by
    rw [words_append, List.length_append]
    exact Nat.le_add_right _ _
  rw [discard?, if_pos ⟨hlength, not_splits_of_append vs rest⟩, words_append, List.drop_left]

theorem duplicate?_words (vs us rest : List Value) :
    duplicate? (words vs).length (words us).length (words (vs ++ (us ++ rest))) =
      some (words (vs ++ us ++ vs ++ rest)) := by
  have hsum : (words vs).length + (words us).length = (words (vs ++ us)).length := by
    rw [words_append, List.length_append]
  have hbelow := not_splits_of_append (vs ++ us) rest
  have hlength : (words (vs ++ us)).length ≤ (words (vs ++ (us ++ rest))).length := by
    rw [← List.append_assoc, words_append (vs ++ us), List.length_append]
    exact Nat.le_add_right _ _
  rw [List.append_assoc, ← hsum] at hbelow
  rw [duplicate?, if_pos ⟨hsum ▸ hlength, not_splits_of_append vs (us ++ rest), hbelow⟩, duplicate,
    ← List.drop_drop]
  simp only [words_append, List.take_left, List.drop_left]

theorem shuffles_drop2 : Shuffles (do Calculation.drop2; return none) (discard? 2) := by
  refine shuffles_next fun f _ => ?_
  cases takes 2 f with
  | taken vs rest hlist hn hpop =>
    refine .inl ⟨f.stack.drop vs.length, ?_, ?_⟩
    · rw [Calculation.drop2, bind_of_ok hpop]
      rfl
    · rw [← hn, hlist, discard?_words, Stack.list_drop, hlist, List.drop_left]
  | refused hn hpop =>
    obtain ⟨e, f', hpop⟩ := hpop
    exact .inr ⟨⟨e, f', bind_of_error hpop⟩, discard?_of_refused hn⟩

theorem shuffles_dup (copied skipped : Nat) :
    Shuffles (do dup copied skipped; return none) (duplicate? copied skipped) := by
  refine shuffles_next fun f hroom => ?_
  cases takes copied f with
  | refused hn hpop =>
    obtain ⟨e, f', hpop⟩ := hpop
    exact .inr ⟨⟨e, f', bind_of_error hpop⟩, duplicate?_of_refused hn⟩
  | taken vs rest hlist hn hpop =>
    have hrest : (f.stack.drop vs.length).list = rest := by
      rw [Stack.list_drop, hlist, List.drop_left]
    cases takes skipped { f with stack := f.stack.drop vs.length } with
    | refused hm hpops =>
      obtain ⟨e, f', hpops⟩ := hpops
      refine .inr ⟨⟨e, f', ?_⟩, ?_⟩
      · rw [dup, bind_of_ok hpop, bind_of_error hpops]
      · rw [hlist, words_append, ← hn]
        exact duplicate?_of_refused_below _ (hrest ▸ hm)
    | taken us deeper hbelow hm hpops =>
      obtain rfl : rest = us ++ deeper := hrest.symm.trans hbelow
      have hresult : duplicate? copied skipped (words f.stack.list) =
          some (words (vs ++ us ++ vs ++ deeper)) := by
        rw [hlist, ← hn, ← hm]
        exact duplicate?_words vs us deeper
      have hdeeper : ((f.stack.drop vs.length).drop us.length).list = deeper := by
        rw [Stack.list_drop, hrest, List.drop_left]
      have hfits := hroom _ hresult
      rw [valueCount_words] at hfits
      obtain ⟨stack, hpush, hstack⟩ := pushAll_of_room (vs.reverse ++ us.reverse ++ vs.reverse)
        (f := { f with stack := (f.stack.drop vs.length).drop us.length }) (by
          rw [hdeeper]
          simp only [List.length_append, List.length_reverse] at hfits ⊢
          omega)
      refine .inl ⟨stack, ?_, ?_⟩
      · rw [dup, bind_of_ok hpop, bind_of_ok hpops]
        exact hpush
      · rw [hresult, hstack, hdeeper]
        simp only [List.reverse_append, List.reverse_reverse, List.append_assoc]

example : duplicate? 2 1 (words [.long 7, .int 1]) = some (words [.long 7, .int 1, .long 7]) := by
  decide

/-- The instructions that copy words, with the number of words that each copies and the number of those
below that it puts the copy beneath. -/
def copying : List (String × Nat × Nat) :=
  [("dup", 1, 0), ("dup_x1", 1, 1), ("dup_x2", 1, 2), ("dup2", 2, 0), ("dup2_x1", 2, 1),
    ("dup2_x2", 2, 2)]

/-- What a mnemonic without operands stands for. -/
def operationOf? (mnemonic : String) : Option Operation :=
  (InstructionSet.opcode? mnemonic).bind InstructionSet.form? |>.bind fun
    | .plain op => some op
    | _ => none

/-- What the instructions that copy and discard words do to the words of the operand stack. -/
structure WordSemantics : Prop where
  copies : ∀ row ∈ copying, ∃ op x, operationOf? row.1 = some op ∧ calculate? op = some x ∧
    Shuffles x (duplicate? row.2.1 row.2.2)
  discards : ∃ op x, operationOf? "pop2" = some op ∧ calculate? op = some x ∧
    Shuffles x (discard? 2)
  whole : Function.Injective words

theorem operationOf_copying : ∀ row ∈ copying,
    operationOf? row.1 = some (.dup row.2.1 row.2.2) := by
  decide +kernel

theorem operationOf_pop2 : operationOf? "pop2" = some .pop2 := by
  decide +kernel

/-- **Words are copied as they are, beneath those that are passed over.** For every frame with room for the
result, an instruction that copies words succeeds exactly if there are enough words, and neither those that
are copied nor those that are passed over end inside a long or a double. The words are then those before,
with the copied ones once more beneath those passed over. All words further down stay, and so does the rest
of the frame. The same is true of the instruction that discards two words. -/
theorem wordSemantics : WordSemantics where
  copies row hrow := ⟨_, _, operationOf_copying row hrow, rfl, shuffles_dup row.2.1 row.2.2⟩
  discards := ⟨_, _, operationOf_pop2, rfl, shuffles_drop2⟩
  whole := words_injective

end Frame

end Jvm.Execution
