import Mathlib
import Jvm.Proofs.ClassFile.Complaints
import Jvm.Proofs.ClassFile.RoundTrip

/-! # No class file begins another one

A reader of a part of a class file reads the same whatever is behind this part (`Takes.append`). The reader of
a whole class file takes all the bytes there are, so that it fails as soon as something is behind a class file
(`fillsAll_class`); hence no class file is a proper prefix of another one (`parse_isolated`). -/

namespace Jvm.ClassFile

/-! ### Bytes behind -/

namespace Reader

variable {α β : Type} {x : Reader α} {R : List UInt8 → α → Prop}

/-- A reader does not look at what is behind the bytes that it takes. -/
theorem Takes.append (hx : Takes x R) {o : Nat} {bs : List UInt8} {a : α} {c : Cursor} (h : x ⟨o, bs⟩ = .ok a c)
    (more : List UInt8) : x ⟨o, bs ++ more⟩ = .ok a ⟨c.offset, c.rest ++ more⟩ := by
  obtain ⟨taken, htaken, rfl, hoffset⟩ := (hx _ _ _ _).mp h
  exact (hx _ _ _ _).mpr ⟨taken, htaken, List.append_assoc .., hoffset⟩

/-- Whether a reader that succeeds does not succeed any more once there are bytes behind those it was given. -/
def FillsAll (x : Reader α) : Prop :=
  ∀ o bs more a a' c c', x ⟨o, bs⟩ = .ok a c → x ⟨o, bs ++ more⟩ = .ok a' c' → more = []

theorem Takes.fillsAll {f : α → Reader β} (hx : Takes x R) (hf : ∀ a, FillsAll (f a)) : FillsAll (x >>= f) := by
  intro o bs more b b' c c' h h'
  obtain ⟨a, ⟨o', rest⟩, ha, hb⟩ := bind_eq_ok.mp h
  obtain ⟨a', d, ha', hb'⟩ := bind_eq_ok.mp h'
  -- the second run goes on from the same result, with more behind
  rw [hx.append ha more] at ha'
  cases ha'
  exact hf a o' rest more b b' c c' hb hb'

theorem fillsAll_malformed (detail : String) : FillsAll (malformed detail : Reader α) := by
  intro o bs more a a' c c' h
  cases h

theorem fillsAll_unless {p : Prop} [Decidable p] {detail : String} (hx : FillsAll x) :
    FillsAll (if p then malformed detail else x) := by
  split
  · exact fillsAll_malformed detail
  · exact hx

/-- A reader that succeeds only where nothing is ahead. -/
theorem TakesAll.fillsAll (hx : TakesAll x R) (hR : ∀ bs a, R bs a → bs = []) : FillsAll x := by
  intro o bs more a a' c c' h h'
  obtain ⟨htaken, -⟩ := (hx _ _ _ _).mp h'
  exact (List.append_eq_nil_iff.mp (hR _ _ htaken)).2

end Reader

/-! ### Class files -/

open Reader

/-- **Reading a class file takes all bytes.** -/
theorem fillsAll_class (depth : Nat) : FillsAll (readClass depth) := by
  have hu2 : Takes u2 fun bs i => True ∧ bs = Assembly.bytes2 i :=
    takes_u2.congr fun _ _ => (true_and _).symm.to_iff
  refine takes_u4.fillsAll fun found => fillsAll_unless ?_
  refine takes_u2.fillsAll fun minor => takes_u2.fillsAll fun major => fillsAll_unless ?_
  refine takes_pool.fillsAll fun pool => ?_
  refine takes_u2.fillsAll fun access => takes_u2.fillsAll fun thisClass => takes_u2.fillsAll fun superClass => ?_
  refine (takes_counted hu2).fillsAll fun interfaces => ?_
  refine (takes_counted (takes_member pool depth)).fillsAll fun fields => ?_
  refine (takes_counted (takes_member pool depth)).fillsAll fun methods => ?_
  refine (takes_attributes pool depth).fillsAll fun attributes => ?_
  exact (takesAll_atEnd _).fillsAll fun _ _ h => h.1

/-- Nothing can stand behind a class file. -/
theorem eq_nil_of_parse_append {bytes more : List UInt8} {c c' : ClassFile} (h : parse bytes = .ok c)
    (h' : parse (bytes ++ more) = .ok c') : more = [] := by
  obtain ⟨-, hfit, spelling, hpool, hbytes⟩ := parse_eq_ok_iff.mp h
  obtain ⟨-, hfit', spelling', hpool', hbytes'⟩ := parse_eq_ok_iff.mp h'
  -- both are read where attributes may be nested as deep as the longer one allows
  have hdeeper : c.Fit ((bytes ++ more).length + 1) := by
    refine hfit.of_length ?_
    rw [hbytes]
    simp only [List.length_append]
    omega
  have hread := takesAll_class ((bytes ++ more).length + 1)
  exact fillsAll_class _ 0 bytes more c c' _ _
    ((hread _ _ _ _).mpr ⟨⟨hdeeper, spelling, hpool, hbytes⟩, rfl⟩)
    ((hread _ _ _ _).mpr ⟨⟨hfit', spelling', hpool', hbytes'⟩, rfl⟩)

theorem isFormat_of_not_ok {bytes : List UInt8} (h : ∀ c, parse bytes ≠ .ok c) :
    ∃ detail, parse bytes = .error (.classFormat detail) := by
  cases hparse : parse bytes with
  | ok c => exact (h c hparse).elim
  | error e =>
    obtain ⟨detail, rfl⟩ := isFormat_of_parse hparse
    exact ⟨detail, rfl⟩

/-- **No class file is a proper prefix of another one.** Wherever a class file is cut off and whatever is put
behind it, reading what comes of it fails with a complaint about the format. -/
theorem parse_isolated {bytes : List UInt8} {c : ClassFile} (h : parse bytes = .ok c) :
    (∀ start rest, bytes = start ++ rest → rest ≠ [] → ∃ detail, parse start = .error (.classFormat detail)) ∧
      ∀ more, more ≠ [] → ∃ detail, parse (bytes ++ more) = .error (.classFormat detail) := by
  refine ⟨fun start rest heq hne => isFormat_of_not_ok fun c' h' => ?_,
    fun more hne => isFormat_of_not_ok fun c' h' => hne (eq_nil_of_parse_append h h')⟩
  rw [heq] at h
  exact hne (eq_nil_of_parse_append h' h)

/-- A class file cut off behind its methods, and with one byte more. -/
theorem parse_isolated_onlyReturns : parse onlyReturns.toBytes = .ok onlyReturns ∧
    (∃ detail, parse (onlyReturns.toBytes.dropLast.dropLast) = .error (.classFormat detail)) ∧
      ∃ detail, parse (onlyReturns.toBytes ++ [0]) = .error (.classFormat detail) := by
  have hparse : parse onlyReturns.toBytes = .ok onlyReturns := by cbv
  obtain ⟨hcut, hmore⟩ := parse_isolated hparse
  exact ⟨hparse, hcut _ [0, 0] (by decide +kernel) (by simp), hmore [0] (by simp)⟩

end Jvm.ClassFile
