import Mathlib
import Jvm.CommandLine.Options

/-! # Where the class is read

The parser of the options is not part of the launcher, which takes any that reads command lines in order (`InOrder`):
an option may have the next argument as its value (`ValueAt`), and the class and the arguments of the program come
where the options have ended (`EndAt`) or behind.

`Options.parse` is such a parser (`inOrder_parse`). Reading options touches neither the class nor the arguments of the
program (`Same`), so each argument of a command line is passed over, or is the class, or is the first of those for the
program (`Reading`). When a command line has been read, the class is one of its arguments, and those for the program
are all from a later one on (`takenAt_of_readArgs`). -/

namespace Jvm.CommandLine

/-! ### Parsers -/

/-- What reads the options of a command line, which begins with the name of the program. -/
abbrev Parser := List String → Except Usage Options

/-- Whether a position is that of the value of an option, which stands before it. -/
def ValueAt (l : List String) : Nat → Prop
  | 0 => False
  | i + 1 => 0 < i ∧ ¬ ValueAt l i ∧ ∃ a, l[i]? = some a ∧ a ∈ valueSpellings

/-- Whether the options end at a position: at an argument that does not begin with a hyphen, at a hyphen alone, or at
two of them. -/
def EndAt (l : List String) (i : Nat) : Prop :=
  0 < i ∧ ¬ ValueAt l i ∧ ∃ a, l[i]? = some a ∧ (a.startsWith "-" = false ∨ a ∈ ["-", "--"])

/-- Whether the class of options is the argument at a position, and the arguments of the program are all those from a
later one on. -/
def Options.TakenAt (o : Options) (l : List String) (k : Nat) : Prop :=
  l[k]? = some o.mainClass ∧ ∃ m, k < m ∧ o.args = l.drop m

/-- Whether a parser reads command lines in order: the class is no option and no value of one, but stands where the
options have ended or behind, and what follows it, from some argument on, is left to the program. -/
def InOrder (parse : Parser) : Prop :=
  ∀ l o, parse l = .ok o → ∃ k, o.TakenAt l k ∧ ∃ j ≤ k, EndAt l j

namespace Progress

/-! ### Options -/

section

variable {p q : Progress} {r : Except Usage Progress}

/-- Whether the class and the arguments of the program are the same for one who has read on. -/
structure Same (p q : Progress) : Prop where
  hasClass : q.hasClass = p.hasClass
  mainClass : q.options.mainClass = p.options.mainClass
  args : q.options.args = p.options.args

/-- Whether the class and the arguments of the program are the same wherever there is a result. -/
def Keeps (p : Progress) (r : Except Usage Progress) : Prop := ∀ q, r = .ok q → Same p q

theorem Same.refl (p : Progress) : Same p p := ⟨rfl, rfl, rfl⟩

theorem Same.trans {p' : Progress} (h : Same p q) (h' : Same q p') : Same p p' :=
  ⟨h'.hasClass.trans h.hasClass, h'.mainClass.trans h.mainClass, h'.args.trans h.args⟩

theorem keeps_ok (h : Same p q) : Keeps p (.ok q) := by
  rintro _ ⟨rfl⟩
  exact h

theorem keeps_error (e : Usage) : Keeps p (.error e) := fun _ h => by cases h

theorem Keeps.bind {f : Progress → Except Usage Progress} (h : Keeps p r) (hf : ∀ q, Keeps q (f q)) :
    Keeps p (r >>= f) := by
  cases r with
  | error e => exact keeps_error e
  | ok q => exact fun p' hp' => (h q rfl).trans (hf q p' hp')

/-- Giving an option its value changes nothing else. -/
theorem assign_keeps {o o' : Options} {option : ValueOption} {value : String} (h : assign o value option = .ok o') :
    o'.mainClass = o.mainClass ∧ o'.args = o.args := by
  have hset {β : Type} {e : Except Usage β} {f : β → Options} (h : (do return f (← e)) = .ok o')
      (hf : ∀ b, (f b).mainClass = o.mainClass ∧ (f b).args = o.args) :
      o'.mainClass = o.mainClass ∧ o'.args = o.args := by
    cases e with
    | error e => cases h
    | ok b =>
      cases h
      exact hf b
  cases option <;> exact hset h fun _ => ⟨rfl, rfl⟩

theorem keeps_assign {option : ValueOption} {value : String} {f : Options → Progress}
    (hf : ∀ o, o.mainClass = p.options.mainClass → o.args = p.options.args → Same p (f o)) :
    Keeps p (do return f (← assign p.options value option)) := by
  cases hassign : assign p.options value option with
  | error e => exact keeps_error e
  | ok o => exact keeps_ok (hf o (assign_keeps hassign).1 (assign_keeps hassign).2)

theorem keeps_settle (p : Progress) : Keeps p p.settle := by
  unfold settle
  split
  · exact keeps_ok (.refl p)
  · exact keeps_error _
  · exact keeps_assign fun _ hclass hargs => ⟨rfl, hclass, hargs⟩

theorem keeps_await (p : Progress) (option : ValueOption) : Keeps p (p.await option) :=
  (keeps_settle p).bind fun _ => keeps_ok ⟨rfl, rfl, rfl⟩

theorem keeps_give (p : Progress) (option : ValueOption) (value : String) : Keeps p (p.give option value) :=
  (keeps_settle p).bind fun _ => keeps_assign fun _ hclass hargs => ⟨rfl, hclass, hargs⟩

theorem keeps_raise (p : Progress) (stop : Option Usage) : Keeps p (p.raise stop) := by
  refine (keeps_settle p).bind fun q => ?_
  cases stop with
  | some usage => exact keeps_error usage
  | none => exact keeps_ok ⟨rfl, rfl, rfl⟩

theorem keeps_flag (p : Progress) (f : Flag) (attached : Option String) : Keeps p (p.flag f attached) := by
  unfold flag
  split
  · exact keeps_give _ _ _
  · exact keeps_await _ _
  · exact keeps_error _
  · exact keeps_raise _ _
  · exact keeps_raise _ _
  · exact keeps_raise _ _

theorem keeps_letters (p : Progress) (cs : List Char) : Keeps p (p.letters cs) := by
  induction cs generalizing p with
  | nil => exact keeps_ok (.refl p)
  | cons c rest ih =>
    unfold letters
    split
    · exact keeps_error _
    · exact keeps_await _ _
    · exact keeps_give _ _ _
    · exact keeps_give _ _ _
    · exact (keeps_flag _ _ _).bind ih

theorem keeps_word (p : Progress) (w : Word) : Keeps p (p.word w) := by
  unfold word
  split
  · split
    · exact keeps_flag _ _ _
    · exact keeps_error _
  · exact keeps_letters _ _
  · exact keeps_ok (.refl p)
  · exact keeps_ok (.refl p)

end

end Progress

/-! ### Arguments -/

open Progress

section

variable {p p' : Progress} {ended : Bool} {arg : String} {rest : List String}

/-- What an argument is read as, with others behind it. -/
inductive Reading (p : Progress) (arg : String) (rest : List String) (p' : Progress) : Prop
  | passed {q : Progress} {ended : Bool} (hsame : Same p q) (hrest : readArgs q ended rest = .ok p')
  | named {q : Progress} {ended : Bool} (hsame : Same p q) (hclass : q.hasClass = false)
      (hrest : readArgs { q with options.mainClass := arg, hasClass := true } ended rest = .ok p')
  | arguments {q : Progress} (hsame : Same p q) (hclass : q.hasClass = true)
      (hdone : p' = { q with options.args := arg :: rest })

theorem reading (h : readArgs p ended (arg :: rest) = .ok p') : Reading p arg rest p' := by
  unfold readArgs at h
  dsimp only at h
  split at h
  · exact .passed (.refl p) h
  · split at h
    · cases hword : p.word (Word.ofArg arg) with
      | error e =>
        rw [hword] at h
        cases h
      | ok q =>
        rw [hword] at h
        exact .passed (keeps_word _ _ q hword) h
    · split at h
      · refine .passed ?_ h
        exact ⟨rfl, rfl, rfl⟩
      · cases hsettle : p.settle with
        | error e =>
          rw [hsettle] at h
          cases h
        | ok q =>
          rw [hsettle] at h
          have hsame := keeps_settle _ q hsettle
          simp only [bind, Except.bind] at h
          split_ifs at h with hclass
          · cases h
            exact .arguments hsame hclass rfl
          · exact .named hsame (Bool.eq_false_iff.mpr hclass) h

theorem Options.TakenAt.cons {o : Options} {l : List String} {k : Nat} (h : o.TakenAt l k) (a : String) :
    o.TakenAt (a :: l) (k + 1) := by
  obtain ⟨hclass, m, hm, hargs⟩ := h
  exact ⟨hclass, m + 1, Nat.succ_lt_succ hm, hargs⟩

theorem Options.TakenAt.congr {o : Options} {l l' : List String} {k : Nat} (h : o.TakenAt l k)
    (hl : ∀ i, k ≤ i → l'[i]? = l[i]?) : o.TakenAt l' k := by
  obtain ⟨hclass, m, hm, hargs⟩ := h
  refine ⟨(hl k le_rfl).trans hclass, m, hm, hargs.trans (List.ext_getElem? fun i => ?_)⟩
  rw [List.getElem?_drop, List.getElem?_drop, hl _ (by omega)]

/-- Behind the class, the arguments of the program are read. -/
theorem args_of_readArgs {l : List String} (h : readArgs p ended l = .ok p') (hclass : p.hasClass = true)
    (hargs : p.options.args = []) :
    p'.options.mainClass = p.options.mainClass ∧ ∃ m, p'.options.args = l.drop m := by
  induction l generalizing p ended with
  | nil =>
    have hsame := keeps_settle _ p' h
    exact ⟨hsame.mainClass, 0, hsame.args.trans hargs⟩
  | cons arg rest ih =>
    cases reading h with
    | passed hsame hrest =>
      obtain ⟨hmain, m, hm⟩ := ih hrest (hsame.hasClass.trans hclass) (hsame.args.trans hargs)
      exact ⟨hmain.trans hsame.mainClass, m + 1, hm⟩
    | named hsame hclass' => exact absurd (hsame.hasClass.symm.trans hclass') (by simp [hclass])
    | arguments hsame _ hdone =>
      subst hdone
      exact ⟨hsame.mainClass, 0, rfl⟩

/-- **The class and the arguments of the program are arguments of the command line,** in this order. -/
theorem takenAt_of_readArgs {l : List String} (h : readArgs p ended l = .ok p') (hclass : p.hasClass = false)
    (hargs : p.options.args = []) (hclass' : p'.hasClass = true) : ∃ k, p'.options.TakenAt l k := by
  induction l generalizing p ended with
  | nil =>
    have hsame := keeps_settle _ p' h
    exact absurd (hsame.hasClass.trans hclass) (by simp [hclass'])
  | cons arg rest ih =>
    cases reading h with
    | passed hsame hrest =>
      obtain ⟨k, htaken⟩ := ih hrest (hsame.hasClass.trans hclass) (hsame.args.trans hargs)
      exact ⟨k + 1, htaken.cons arg⟩
    | named hsame _ hrest =>
      obtain ⟨hmain, m, hm⟩ := args_of_readArgs hrest rfl (hsame.args.trans hargs)
      exact ⟨0, by rw [hmain]; rfl, m + 1, Nat.succ_pos m, hm⟩
    | arguments hsame hclass'' => exact absurd (hsame.hasClass.symm.trans hclass'') (by simp [hclass])

/-! ### Before the class -/

/-- A text behind a hyphen is an option before the class, but for the hyphen alone and a second one. -/
theorem isOption_ofArg (hclass : p.hasClass = false) (hhyphen : arg.startsWith "-" = true)
    (hescape : arg ∉ ["-", "--"]) : Word.ofArg arg ≠ .escape ∧ p.isOption (Word.ofArg arg) = true := by
  obtain ⟨cs, hcs⟩ : ['-'] <+: arg.toList := String.startsWith_string_iff.mp hhyphen
  rw [Word.ofArg, ← hcs]
  rcases cs with _ | ⟨c, cs⟩
  · exact absurd (String.toList_inj.mp (hcs.symm.trans rfl)) fun h : arg = "-" => hescape (by simp [h])
  · by_cases hc : c = '-'
    · subst hc
      rcases cs with _ | ⟨d, ds⟩
      · exact absurd (String.toList_inj.mp (hcs.symm.trans rfl)) fun h : arg = "--" => hescape (by simp [h])
      · simp [isOption, hclass]
    · simp [isOption, hclass, hc]

theorem readArgs_option (hclass : p.hasClass = false) (hhyphen : arg.startsWith "-" = true)
    (hescape : arg ∉ ["-", "--"]) (h : readArgs p false (arg :: rest) = .ok p') :
    ∃ q, p.word (Word.ofArg arg) = .ok q ∧ readArgs q false rest = .ok p' := by
  obtain ⟨hne, hoption⟩ := isOption_ofArg hclass hhyphen hescape
  unfold readArgs at h
  simp only [hne, hoption, bind, Except.bind] at h
  cases hword : p.word (Word.ofArg arg) with
  | error e => simp [hword] at h
  | ok q => exact ⟨q, rfl, by simpa [hword] using h⟩

/-- The options that take a value wait for it. -/
theorem exists_await (harg : arg ∈ valueSpellings) : ∃ option, ∀ p, word p (Word.ofArg arg) = p.await option := by
  simp only [valueSpellings, List.mem_cons, List.not_mem_nil, or_false] at harg
  rcases harg with rfl | rfl | rfl | rfl | rfl | rfl | rfl <;> exact ⟨_, fun _ => rfl⟩

theorem pending_of_await {option : ValueOption} {q : Progress} (h : p.await option = .ok q) :
    q.pending = some (option, none) := by
  cases hsettle : p.settle with
  | error e => simp [await, hsettle, bind, Except.bind] at h
  | ok r =>
    simp only [await, hsettle, bind, Except.bind] at h
    cases h
    rfl

/-- An option waits in vain for a value when the options have ended. -/
theorem readArgs_ended_ne_ok {option : ValueOption} {l : List String} (hpending : p.pending = some (option, none)) :
    readArgs p true l ≠ .ok p' := by
  have hsettle : p.settle = .error .invalidValue := by rw [settle, hpending]
  cases l with
  | nil =>
    rw [readArgs, hsettle]
    exact fun h => by cases h
  | cons arg rest =>
    simp [readArgs, hsettle, bind, Except.bind]

/-- What comes where a value is awaited is read, if at all, without taking it for the class. -/
theorem passed_of_pending {option : ValueOption} (hpending : p.pending = some (option, none))
    (h : readArgs p false (arg :: rest) = .ok p') : ∃ q, Same p q ∧ readArgs q false rest = .ok p' := by
  unfold readArgs at h
  simp only [hpending, Bool.not_false, Bool.true_and, decide_eq_true_eq] at h
  split_ifs at h with hescape hoption
  · exact absurd h (readArgs_ended_ne_ok hpending)
  · cases hword : p.word (Word.ofArg arg) with
    | error e =>
      rw [hword] at h
      cases h
    | ok q =>
      rw [hword] at h
      exact ⟨q, keeps_word _ _ q hword, h⟩
  · refine ⟨_, ?_, h⟩
    exact ⟨rfl, rfl, rfl⟩

/-! ### The parser reads in order -/

theorem valueAt_succ {l : List String} {k : Nat} {a : String} (hk : 0 < k) (ha : l[k]? = some a) :
    ValueAt l (k + 1) ↔ ¬ ValueAt l k ∧ a ∈ valueSpellings := by
  simp [ValueAt, hk, ha]

theorem of_drop_eq_cons {α : Type} {l rest : List α} {k : Nat} {a : α} (h : l.drop k = a :: rest) :
    l[k]? = some a ∧ l.drop (k + 1) = rest := by
  have hhead : (l.drop k)[0]? = l[k + 0]? := List.getElem?_drop
  exact ⟨by rw [← Nat.add_zero k, ← hhead, h]; rfl, by rw [← List.drop_drop, h]; rfl⟩

/-- **The class is read where the options end or behind,** the induction being on how many arguments are left. -/
theorem endAt_of_readArgs {l : List String} {k : Nat} {awaited : Bool} (hk : 0 < k) (hrest : l.drop k = rest)
    (hawaited : awaited = true ↔ ValueAt l k) (hclass : p.hasClass = false) (hargs : p.options.args = [])
    (hpending : awaited = true → ∃ option, p.pending = some (option, none)) (h : readArgs p false rest = .ok p')
    (hclass' : p'.hasClass = true) : ∃ i, p'.options.TakenAt rest i ∧ ∃ j ≤ k + i, EndAt l j := by
  induction rest generalizing k awaited p with
  | nil =>
    have hsame := keeps_settle _ p' h
    exact absurd (hsame.hasClass.trans hclass) (by simp [hclass'])
  | cons a rest ih =>
    obtain ⟨ha, htail⟩ := of_drop_eq_cons hrest
    have hsucc := valueAt_succ hk ha
    -- the argument at `k` is passed over, and the class is read behind it
    have hnext (next : Bool) {q : Progress} (hsame : Same p q) (hawaited' : next = true ↔ ValueAt l (k + 1))
        (hpending' : next = true → ∃ option, q.pending = some (option, none))
        (hq : readArgs q false rest = .ok p') :
        ∃ i, p'.options.TakenAt (a :: rest) i ∧ ∃ j ≤ k + i, EndAt l j := by
      obtain ⟨i, htaken, j, hj, hend⟩ := ih (Nat.succ_pos k) htail hawaited' (hsame.hasClass.trans hclass)
        (hsame.args.trans hargs) hpending' hq
      exact ⟨i + 1, htaken.cons a, j, by omega, hend⟩
    cases awaited with
    | true =>
      obtain ⟨option, hoption⟩ := hpending rfl
      obtain ⟨q, hsame, hq⟩ := passed_of_pending hoption h
      exact hnext false hsame (by simp [hsucc, hawaited.mp rfl]) (fun h => by cases h) hq
    | false =>
      have hfree : ¬ ValueAt l k := fun h => Bool.false_ne_true (hawaited.mpr h)
      -- the options end at `k`
      have hhere (hend : a.startsWith "-" = false ∨ a ∈ ["-", "--"]) :
          ∃ i, p'.options.TakenAt (a :: rest) i ∧ ∃ j ≤ k + i, EndAt l j := by
        obtain ⟨i, htaken⟩ := takenAt_of_readArgs h hclass hargs hclass'
        exact ⟨i, htaken, k, Nat.le_add_right k i, hk, hfree, a, ha, hend⟩
      by_cases hescape : a ∈ ["-", "--"]
      · exact hhere (.inr hescape)
      cases hhyphen : a.startsWith "-" with
      | false => exact hhere (.inl hhyphen)
      | true =>
        obtain ⟨q, hword, hq⟩ := readArgs_option hclass hhyphen hescape h
        by_cases hvalued : a ∈ valueSpellings
        · obtain ⟨option, hawait⟩ := exists_await hvalued
          rw [hawait] at hword
          exact hnext true (keeps_await _ _ q hword) (by simp [hsucc, hfree, hvalued])
            (fun _ => ⟨option, pending_of_await hword⟩) hq
        · exact hnext false (keeps_word _ _ q hword) (by simp [hsucc, hvalued]) (fun h => by cases h) hq

end

theorem inOrder_parse : InOrder Options.parse := by
  intro l o ho
  cases l with
  | nil => cases ho
  | cons program rest =>
    cases hread : readArgs .start false rest with
    | error e =>
      simp only [Options.parse, List.tail_cons, hread] at ho
      cases ho
    | ok p =>
      simp only [Options.parse, List.tail_cons, hread, bind, Except.bind] at ho
      split_ifs at ho with hclass
      · cases ho
        have hfirst : false = true ↔ ValueAt (program :: rest) 1 := by simp [ValueAt]
        obtain ⟨i, htaken, j, hj, hend⟩ := endAt_of_readArgs Nat.one_pos (List.drop_one ..) hfirst rfl rfl
          (fun h => by cases h) hread hclass
        exact ⟨i + 1, htaken.cons program, j, by omega, hend⟩

end Jvm.CommandLine
