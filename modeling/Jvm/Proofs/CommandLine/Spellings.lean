import Mathlib
import Jvm.Proofs.CommandLine.Parsing

/-! # Spellings of the class path option

Which arguments of a command line are spelt anew is told position by position, without going through the command
line: an argument is the value of the option before it (`AwaitedAt`), or it is no option at all (`OperandAt`), and
an option is spelt anew up to the first one of these (`RespeltAt`).

An argument that begins with a hyphen counts as an option here wherever it stands. A parser of the options knows
better (`InOrder`): a lone hyphen is no option, and behind two of them nothing is (`EscapeAt`). So a class or an
argument of the program that is named like a spelling of the class path option can be renamed on the way to the parser
(`class_respelt`). `normalize_respells` says that this is all that can go wrong: the same law holds with the
one end of the options and with the other exactly when no option is spelt anew behind such hyphens. -/

namespace Jvm.CommandLine

namespace Spelling

section

variable {α : Type} (w : Spelling α) (args : List α) (ends : Nat → Prop)

/-- Whether an argument is one of some texts. -/
def Spelt (a : α) (texts : List String) : Prop := ∃ text ∈ texts, w.text? a = some text

/-- Whether an argument is a text that begins with a hyphen. -/
def IsOption (a : α) : Prop := ∃ text, w.text? a = some text ∧ text.startsWith "-" = true

/-- Whether a position is that of a value: the argument before it is an option that takes one, and neither the
name of the program nor a value itself. -/
def AwaitedAt : Nat → Prop
  | 0 => False
  | i + 1 => 0 < i ∧ ¬ AwaitedAt i ∧ ∃ a, args[i]? = some a ∧ w.Spelt a (valueSpellings ++ classPathSpellings)

/-- Whether a position is that of an argument that is neither an option nor the value of one. -/
def OperandAt (i : Nat) : Prop := 0 < i ∧ ¬ w.AwaitedAt args i ∧ ∃ a, args[i]? = some a ∧ ¬ w.IsOption a

/-- Whether a position is that of hyphens that end the options for the parser, and are not the value of one: one
hyphen stands for itself, and two for nothing. -/
def EscapeAt (i : Nat) : Prop :=
  0 < i ∧ ¬ w.AwaitedAt args i ∧ ∃ a, args[i]? = some a ∧ w.Spelt a ["-", "--"]

/-- Whether the options end at a position for the parser. -/
def StopAt (i : Nat) : Prop := w.OperandAt args i ∨ w.EscapeAt args i

/-- Whether a position is that of the class path option in a spelling that stands for `--cp`: behind the name of the
program, not that of a value, and before the options end. -/
def RespeltAt (i : Nat) : Prop := 0 < i ∧ ¬ w.AwaitedAt args i ∧ (∀ j < i, ¬ ends j) ∧
  ∃ a, args[i]? = some a ∧ w.Spelt a classPathSpellings

/-- Whether an argument is what should come to a position: the argument `--cp` where the option is spelt anew, and
else what was there. -/
def FitsAt (i : Nat) (x : Option α) : Prop :=
  w.RespeltAt args ends i ∧ x = some w.classPath ∨ ¬ w.RespeltAt args ends i ∧ x = args[i]?

/-- What is made of a command line when the class path option is spelt anew in it, up to where the options end. -/
structure Respells (out : List α) : Prop where
  length : out.length = args.length
  fits (i : Nat) : w.FitsAt args ends i out[i]?
  program : out[0]? = args[0]?
  value (i : Nat) : w.AwaitedAt args i → out[i]? = args[i]?
  behind (i j : Nat) : ends i → i ≤ j → out[j]? = args[j]?
  again : w.normalize out = out

/-- Whether no option is spelt anew behind hyphens that end the options for the parser. -/
def Unescaped : Prop := ∀ i, w.RespeltAt args (w.OperandAt args) i → ∀ j < i, ¬ w.EscapeAt args j

end

section

variable {α : Type} {w : Spelling α} {args rest : List α} {a x : α} {ends : Nat → Prop} {i j k : Nat}

/-! ### Arguments -/

theorem spelt_append {texts texts' : List String} :
    w.Spelt a (texts ++ texts') ↔ w.Spelt a texts ∨ w.Spelt a texts' := by
  simp only [Spelt, List.mem_append, or_and_right, exists_or]

theorem not_spelt {texts texts' : List String} (htexts : ∀ text ∈ texts, text ∉ texts') (h : w.Spelt a texts) :
    ¬ w.Spelt a texts' := by
  rintro ⟨text', htext', ha'⟩
  obtain ⟨text, htext, ha⟩ := h
  cases ha.symm.trans ha'
  exact htexts _ htext htext'

theorem spelt_classPath : w.Spelt w.classPath ["--cp"] := ⟨"--cp", List.mem_singleton_self _, w.text?_classPath⟩

theorem startsWith_of_mem {text : String} (h : text ∈ valueSpellings ++ classPathSpellings) :
    text.startsWith "-" = true := by
  have hall : ∀ text ∈ valueSpellings ++ classPathSpellings, text.startsWith "-" = true := by
    simp [valueSpellings, classPathSpellings]
  exact hall text h

theorem isOption_of_spelt (h : w.Spelt a (valueSpellings ++ classPathSpellings)) : w.IsOption a := by
  obtain ⟨text, htext, ha⟩ := h
  exact ⟨text, ha, startsWith_of_mem htext⟩

/-- What is made of an argument that is not awaited, and of those behind it. -/
inductive Scan (w : Spelling α) (a : α) (rest : List α) : List α → Prop
  | classPath (h : w.Spelt a classPathSpellings) : Scan w a rest (w.classPath :: w.respell true rest)
  | valued (h : w.Spelt a valueSpellings) (hnot : ¬ w.Spelt a classPathSpellings) :
      Scan w a rest (a :: w.respell true rest)
  | flag (h : w.IsOption a) (hnot : ¬ w.Spelt a (valueSpellings ++ classPathSpellings)) :
      Scan w a rest (a :: w.respell false rest)
  | positional (h : ¬ w.IsOption a) : Scan w a rest (a :: rest)

theorem scan (w : Spelling α) (a : α) (rest : List α) : w.Scan a rest (w.respell false (a :: rest)) := by
  rw [respell, if_neg Bool.false_ne_true]
  cases htext : w.text? a with
  | none => exact .positional fun ⟨text, h, _⟩ => by cases htext.symm.trans h
  | some text =>
    have hspelt (texts : List String) : w.Spelt a texts ↔ text ∈ texts := by simp [Spelt, htext]
    have hoption : w.IsOption a ↔ text.startsWith "-" = true := by simp [IsOption, htext]
    simp only [Role.ofText?]
    split_ifs with hpath hvalue hhyphen
    · exact .classPath ((hspelt _).mpr hpath)
    · exact .valued ((hspelt _).mpr hvalue) fun h => hpath ((hspelt _).mp h)
    · refine .flag (hoption.mpr hhyphen) fun h => ?_
      rcases List.mem_append.mp ((hspelt _).mp h) with h | h
      exacts [hvalue h, hpath h]
    · exact .positional fun h => hhyphen (hoption.mp h)

/-! ### Positions -/

theorem awaitedAt_succ (hk : 0 < k) (ha : args[k]? = some a) : w.AwaitedAt args (k + 1) ↔
    ¬ w.AwaitedAt args k ∧ w.Spelt a (valueSpellings ++ classPathSpellings) := by
  simp [AwaitedAt, hk, ha]

/-- The class path option does not end the options. -/
theorem StopAt.not_spelt (h : w.StopAt args i) (ha : args[i]? = some a) : ¬ w.Spelt a classPathSpellings := by
  rcases h with ⟨-, -, b, hb, hnot⟩ | ⟨-, -, b, hb, hescape⟩ <;> cases ha.symm.trans hb
  · exact fun hspelt => hnot (isOption_of_spelt (spelt_append.mpr (.inr hspelt)))
  · exact Spelling.not_spelt (by decide) hescape

/-- Nothing is spelt anew where the options end, or behind. -/
theorem not_respeltAt (hends : ∀ i, ends i → w.StopAt args i) (h : ends j) (hij : j ≤ i) :
    ¬ w.RespeltAt args ends i := by
  rintro ⟨-, -, hbefore, a, ha, hspelt⟩
  rcases hij.lt_or_eq with hlt | rfl
  · exact hbefore j hlt h
  · exact (hends j h).not_spelt ha hspelt

theorem not_respeltAt_of_awaitedAt (h : w.AwaitedAt args i) : ¬ w.RespeltAt args ends i :=
  fun hrespelt => hrespelt.2.1 h

theorem FitsAt.of_not (h : ¬ w.RespeltAt args ends i) (hx : args[i]? = some x) : w.FitsAt args ends i (some x) :=
  .inr ⟨h, hx.symm⟩

theorem FitsAt.eq_of_not {x : Option α} (h : w.FitsAt args ends i x) (hnot : ¬ w.RespeltAt args ends i) :
    x = args[i]? :=
  h.elim (fun h => absurd h.1 hnot) And.right

theorem Respells.of_fits {out : List α} (hends : ∀ i, ends i → w.StopAt args i) (hlength : out.length = args.length)
    (hfits : ∀ i, w.FitsAt args ends i out[i]?) (hagain : w.normalize out = out) : w.Respells args ends out where
  length := hlength
  fits := hfits
  program := (hfits 0).eq_of_not fun h => h.1.false
  value i h := (hfits i).eq_of_not (not_respeltAt_of_awaitedAt h)
  behind _ j h hij := (hfits j).eq_of_not (not_respeltAt hends h hij)
  again := hagain

/-! ### Going through a command line -/

/-- **What is made of the arguments from a position on,** the induction being on how many they are. What is known of
those before it is that none of them ends the options. -/
theorem fitsAt_respell {awaited : Bool} (hk : 0 < k) (hrest : args.drop k = rest)
    (hawaited : awaited = true ↔ w.AwaitedAt args k) (hbefore : ∀ j < k, ¬ w.OperandAt args j) (i : Nat) :
    w.FitsAt args (w.OperandAt args) (k + i) (w.respell awaited rest)[i]? := by
  induction rest generalizing k awaited i with
  | nil =>
    have hend : args[k + i]? = none := by rw [← List.getElem?_drop, hrest]; rfl
    exact .inr ⟨fun h => by simp [RespeltAt, hend] at h, by rw [hend]; rfl⟩
  | cons a rest ih =>
    obtain ⟨ha, htail⟩ := of_drop_eq_cons hrest
    have hsucc := awaitedAt_succ (w := w) hk ha
    -- the argument at `k` does not end the options, and the others follow
    have hnext {awaited' : Bool} {x : α} (hx : w.FitsAt args (w.OperandAt args) k (some x))
        (hk' : ¬ w.OperandAt args k) (hawaited' : awaited' = true ↔ w.AwaitedAt args (k + 1)) :
        w.FitsAt args (w.OperandAt args) (k + i) (x :: w.respell awaited' rest)[i]? := by
      cases i with
      | zero => exact hx
      | succ i =>
        rw [List.getElem?_cons_succ, Nat.add_comm i, ← Nat.add_assoc]
        refine ih (Nat.succ_pos k) htail hawaited' (fun j hj => ?_) i
        rcases (Nat.lt_succ_iff.mp hj).lt_or_eq with hlt | rfl
        exacts [hbefore j hlt, hk']
    cases awaited with
    | true =>
      have hvalue := hawaited.mp rfl
      refine hnext (.of_not (not_respeltAt_of_awaitedAt hvalue) ha) (fun h => h.2.1 hvalue) ?_
      simp [hsucc, hvalue]
    | false =>
      have hfree : ¬ w.AwaitedAt args k := fun h => Bool.false_ne_true (hawaited.mpr h)
      have hoption (h : w.IsOption a) : ¬ w.OperandAt args k := by
        rintro ⟨-, -, b, hb, hnot⟩
        cases ha.symm.trans hb
        exact hnot h
      have hkept (h : ¬ w.Spelt a classPathSpellings) : w.FitsAt args (w.OperandAt args) k (some a) := by
        refine .of_not ?_ ha
        rintro ⟨-, -, -, b, hb, hspelt⟩
        cases ha.symm.trans hb
        exact h hspelt
      have hscan := scan w a rest
      generalize w.respell false (a :: rest) = out at hscan ⊢
      cases hscan with
      | classPath hspelt =>
        have hany : w.Spelt a (valueSpellings ++ classPathSpellings) := spelt_append.mpr (.inr hspelt)
        exact hnext (.inl ⟨⟨hk, hfree, hbefore, a, ha, hspelt⟩, rfl⟩) (hoption (isOption_of_spelt hany))
          (by simp [hsucc, hfree, hany])
      | valued hspelt hnot =>
        have hany : w.Spelt a (valueSpellings ++ classPathSpellings) := spelt_append.mpr (.inl hspelt)
        exact hnext (hkept hnot) (hoption (isOption_of_spelt hany)) (by simp [hsucc, hfree, hany])
      | flag hhyphen hnot =>
        exact hnext (hkept fun h => hnot (spelt_append.mpr (.inr h))) (hoption hhyphen) (by simp [hsucc, hnot])
      | positional hnot =>
        have hoperand : w.OperandAt args k := ⟨hk, hfree, a, ha, hnot⟩
        refine .inr ⟨not_respeltAt (fun _ => .inl) hoperand (Nat.le_add_right k i), ?_⟩
        rw [← List.getElem?_drop, hrest]

theorem length_respell (awaited : Bool) (rest : List α) : (w.respell awaited rest).length = rest.length := by
  induction rest generalizing awaited with
  | nil => rfl
  | cons a rest ih => grind [respell]

theorem respell_respell (awaited : Bool) (rest : List α) :
    w.respell awaited (w.respell awaited rest) = w.respell awaited rest := by
  have hclassPath : Role.ofText? (w.text? w.classPath) = .valued := by rw [w.text?_classPath]; decide
  induction rest generalizing awaited with
  | nil => rfl
  | cons a rest ih =>
    cases awaited with
    | true => simp [respell, ih]
    | false => cases hrole : Role.ofText? (w.text? a) <;> simp [respell, hrole, hclassPath, ih]

theorem fitsAt_normalize (i : Nat) : w.FitsAt args (w.OperandAt args) i (w.normalize args)[i]? := by
  have hprogram : ¬ w.RespeltAt args (w.OperandAt args) 0 := fun h => h.1.false
  cases args with
  | nil => exact .inr ⟨fun h => by simp [RespeltAt] at h, rfl⟩
  | cons program rest =>
    cases i with
    | zero => exact .of_not hprogram rfl
    | succ i =>
      have hfirst : false = true ↔ w.AwaitedAt (program :: rest) 1 := by simp [AwaitedAt]
      have hbefore : ∀ j < 1, ¬ w.OperandAt (program :: rest) j := fun j hj h =>
        absurd h.1 (Nat.not_lt.mpr (Nat.le_of_lt_succ hj))
      have hfits := fitsAt_respell Nat.one_pos (List.drop_one ..) hfirst hbefore i
      rwa [Nat.add_comm] at hfits

theorem respells (w : Spelling α) (args : List α) : w.Respells args (w.OperandAt args) (w.normalize args) := by
  refine .of_fits (fun _ => .inl) ?_ fitsAt_normalize ?_ <;> cases args with
  | nil => rfl
  | cons program rest => simp [normalize, length_respell, respell_respell]

/-! ### Where the options end -/

theorem unescaped_of_forall_mem (h : ∀ a ∈ args, ¬ w.Spelt a ["-", "--"]) : w.Unescaped args := by
  rintro i - j - ⟨-, -, a, ha, hescape⟩
  exact h a (List.mem_of_getElem? ha) hescape

theorem respeltAt_stopAt_iff (h : w.Unescaped args) :
    w.RespeltAt args (w.StopAt args) i ↔ w.RespeltAt args (w.OperandAt args) i := by
  constructor
  · rintro ⟨hi, hfree, hbefore, ha⟩
    exact ⟨hi, hfree, fun j hj hoperand => hbefore j hj (.inl hoperand), ha⟩
  · intro hi
    exact ⟨hi.1, hi.2.1, fun j hj hstop => hstop.elim (hi.2.2.1 j hj) (h i hi j hj), hi.2.2.2⟩

/-- **The law holds with the parser's end of the options exactly when nothing is spelt anew behind it.** -/
theorem respells_stopAt_iff (w : Spelling α) (args : List α) :
    w.Respells args (w.StopAt args) (w.normalize args) ↔ w.Unescaped args := by
  have hrespells := respells w args
  constructor
  · intro h i hi j hj hescape
    obtain ⟨-, hclassPath⟩ := (hrespells.fits i).resolve_right fun hnot => hnot.1 hi
    have hkept := h.behind j i (.inr hescape) hj.le
    obtain ⟨-, -, -, a, ha, hspelt⟩ := hi
    rw [hclassPath, ha] at hkept
    cases hkept
    exact not_spelt (by decide) spelt_classPath hspelt
  · intro h
    refine .of_fits (fun _ => id) hrespells.length (fun i => ?_) hrespells.again
    rw [FitsAt, respeltAt_stopAt_iff h]
    exact hrespells.fits i

end

/-! ### The class -/

section

variable {args commandLine : List String} {i j : Nat}

theorem spelt_texts {a : String} {l : List String} : texts.Spelt a l ↔ a ∈ l := by simp [Spelt, texts]

/-- What comes to a position up to which the options have not ended: the argument `--cp` for the class path option, or
what was there, which is not that option unless it is a value. -/
theorem getElem?_normalize (hgoes : ∀ i < j, ¬ texts.StopAt args i) :
    (∃ a, args[j]? = some a ∧ a ∈ classPathSpellings ∧ (texts.normalize args)[j]? = some "--cp") ∨
      (texts.normalize args)[j]? = args[j]? ∧
        (0 < j → ¬ texts.AwaitedAt args j → ∀ a, args[j]? = some a → a ∉ classPathSpellings) := by
  rcases (respells texts args).fits j with ⟨⟨-, -, -, a, ha, hspelt⟩, hclassPath⟩ | ⟨hnot, hkept⟩
  · exact .inl ⟨a, ha, spelt_texts.mp hspelt, hclassPath⟩
  · refine .inr ⟨hkept, fun hpos hfree a ha hspelt => hnot ⟨hpos, hfree, fun k hk hoperand => ?_, a, ha,
      spelt_texts.mpr hspelt⟩⟩
    exact hgoes k hk (.inl hoperand)

/-- One who reads the options takes the same arguments for values, up to where the options end. -/
theorem valueAt_normalize (hgoes : ∀ i < j, ¬ texts.StopAt args i) :
    ValueAt (texts.normalize args) j ↔ texts.AwaitedAt args j := by
  induction j with
  | zero => rfl
  | succ j ih =>
    have ih := ih fun i hi => hgoes i (Nat.lt_succ_of_lt hi)
    rw [ValueAt, AwaitedAt, ih]
    refine and_congr_right fun hpos => and_congr_right fun hfree => ?_
    rcases getElem?_normalize fun i hi => hgoes i (Nat.lt_succ_of_lt hi) with
      ⟨a, ha, hspelt, hclassPath⟩ | ⟨hkept, hnot⟩
    · simp [hclassPath, ha, spelt_texts, hspelt, valueSpellings]
    · rw [hkept]
      refine exists_congr fun a => and_congr_right fun ha => ?_
      simp [spelt_texts, hnot hpos hfree a ha]

/-- Where the options end for one who reads them, they have ended before the class path option was spelt anew. -/
theorem stopAt_of_endAt (h : EndAt (texts.normalize args) j) : ∃ i ≤ j, texts.StopAt args i := by
  by_contra hnone
  have hgoes : ∀ i ≤ j, ¬ texts.StopAt args i := fun i hi hstop => hnone ⟨i, hi, hstop⟩
  obtain ⟨hpos, hfree, a, ha, hend⟩ := h
  rw [valueAt_normalize fun i hi => hgoes i hi.le] at hfree
  rcases getElem?_normalize fun i hi => hgoes i hi.le with ⟨-, -, -, hclassPath⟩ | ⟨hkept, -⟩
  · cases hclassPath.symm.trans ha
    simp at hend
  · rw [hkept] at ha
    refine hgoes j le_rfl (hend.imp (fun hplain => ⟨hpos, hfree, a, ha, ?_⟩) fun hescape =>
      ⟨hpos, hfree, a, ha, spelt_texts.mpr hescape⟩)
    rintro ⟨text, ⟨rfl⟩, hhyphen⟩
    exact Bool.false_ne_true (hplain.symm.trans hhyphen)

/-- The class and the arguments of the program come to the parser as they are. -/
theorem takenAt_normalize {parse : Parser} (hparse : InOrder parse) (hunescaped : texts.Unescaped commandLine)
    {o : Options} (ho : parse (CommandLine.normalize commandLine) = .ok o) : ∃ k, o.TakenAt commandLine k := by
  obtain ⟨k, htaken, j, hj, hend⟩ := hparse _ o ho
  obtain ⟨i, hi, hstop⟩ := stopAt_of_endAt hend
  have hrespells := (respells_stopAt_iff texts _).mpr hunescaped
  exact ⟨k, htaken.congr fun k' hk => (hrespells.behind i k' hstop (by omega)).symm⟩

end

/-- What is to be said of arguments in which the class path option is spelt anew. -/
structure Normalized {α : Type} (w : Spelling α) (args : List α) : Prop where
  respells : w.Respells args (w.OperandAt args) (w.normalize args)
  respells_iff : w.Respells args (w.StopAt args) (w.normalize args) ↔ w.Unescaped args

end Spelling

/-- **The class path option is spelt anew, and nothing else,** whether or not the arguments are texts. Where a parser
that reads in order finds a class, it is that of the command line unless an option is spelt anew behind hyphens that
end the options. -/
theorem normalize_respells (args : List Argument) (commandLine : List String) :
    Spelling.arguments.Normalized args ∧ Spelling.texts.Normalized commandLine ∧
      ∀ parse, InOrder parse → Spelling.texts.Unescaped commandLine →
        ∀ o, parse (normalize commandLine) = .ok o → ∃ k, o.TakenAt commandLine k :=
  ⟨⟨Spelling.arguments.respells args, Spelling.arguments.respells_stopAt_iff args⟩,
    ⟨Spelling.texts.respells commandLine, Spelling.texts.respells_stopAt_iff commandLine⟩,
    fun _ hparse hunescaped _ => Spelling.takenAt_normalize hparse hunescaped⟩

/-- The class and the arguments of the program come to the parser behind an option that is spelt anew. -/
theorem class_kept :
    InOrder Options.parse ∧ Spelling.texts.Unescaped ["corten-jvm", "-cp", "out", "Main", "-cp", "x"] ∧
      Options.parse (normalize ["corten-jvm", "-cp", "out", "Main", "-cp", "x"]) =
        .ok ⟨some "out", none, none, none, none, 0, "Main", ["-cp", "x"]⟩ ∧
      ∃ k, Options.TakenAt ⟨some "out", none, none, none, none, 0, "Main", ["-cp", "x"]⟩
        ["corten-jvm", "-cp", "out", "Main", "-cp", "x"] k := by
  have hunescaped : Spelling.texts.Unescaped ["corten-jvm", "-cp", "out", "Main", "-cp", "x"] := by
    refine Spelling.unescaped_of_forall_mem fun a ha => ?_
    rw [Spelling.spelt_texts]
    revert a
    decide
  have hparse : Options.parse (normalize ["corten-jvm", "-cp", "out", "Main", "-cp", "x"]) =
      .ok ⟨some "out", none, none, none, none, 0, "Main", ["-cp", "x"]⟩ := by cbv
  exact ⟨inOrder_parse, hunescaped, hparse, (normalize_respells [] _).2.2 _ inOrder_parse hunescaped _ hparse⟩

/-- Behind `--`, where the options have ended, the class is given another name. -/
theorem class_respelt :
    Spelling.texts.StopAt ["corten-jvm", "--", "-cp"] 1 ∧
      normalize ["corten-jvm", "--", "-cp"] = ["corten-jvm", "--", "--cp"] := by
  refine ⟨.inr ⟨Nat.one_pos, fun h => h.1.false, "--", rfl, ?_⟩, by cbv⟩
  exact Spelling.spelt_texts.mpr (by decide)

end Jvm.CommandLine
