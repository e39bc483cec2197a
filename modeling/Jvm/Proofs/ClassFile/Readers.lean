import Mathlib
import Jvm.Assembly.Pool
import Jvm.Proofs.Bytecode.Reading

/-! # What readers take

`Takes` says of a reader, in both directions, on which bytes it succeeds and with which result. It composes
along `bind`, so that each reader is opened once, and what it takes is stated with the bytes that a writer
spells. -/

namespace Jvm.ClassFile.Reader

open Assembly

variable {α β : Type} {x y : Reader α} {R S : List UInt8 → α → Prop}

/-- Whether a reader succeeds exactly on the bytes that a relation allows for its result, whatever
follows them, and moves behind them. -/
def Takes (x : Reader α) (R : List UInt8 → α → Prop) : Prop :=
  ∀ (o : Nat) (bs : List UInt8) (a : α) (c : Cursor), x ⟨o, bs⟩ = .ok a c ↔
    ∃ taken, R taken a ∧ bs = taken ++ c.rest ∧ c.offset = o + taken.length

theorem Takes.congr (hx : Takes x R) (h : ∀ bs a, R bs a ↔ S bs a) : Takes x S := by
  intro o bs a c
  simp only [hx o bs a c, h]

theorem takes_pure (a : α) : Takes (pure a) fun bs b => b = a ∧ bs = [] := by
  rintro o bs b ⟨o', rest⟩
  change EStateM.Result.ok a (Cursor.mk o bs) = _ ↔ _
  simp only [EStateM.Result.ok.injEq, Cursor.mk.injEq]
  constructor
  · rintro ⟨rfl, rfl, rfl⟩
    exact ⟨[], ⟨rfl, rfl⟩, rfl, rfl⟩
  · rintro ⟨_, ⟨rfl, rfl⟩, rfl, rfl⟩
    exact ⟨rfl, rfl, rfl⟩

theorem bind_eq_ok {f : α → Reader β} {c c'' : Cursor} {b : β} :
    (x >>= f) c = .ok b c'' ↔ ∃ a c', x c = .ok a c' ∧ f a c' = .ok b c'' := by
  change EStateM.bind x f c = _ ↔ _
  unfold EStateM.bind
  rcases x c with ⟨a, c'⟩ | ⟨e, c'⟩
  · simp
  · simp

theorem Takes.bind {f : α → Reader β} {T : α → List UInt8 → β → Prop} (hx : Takes x R)
    (hf : ∀ a, Takes (f a) (T a)) :
    Takes (x >>= f) fun bs b => ∃ a first second, R first a ∧ T a second b ∧ bs = first ++ second := by
  intro o bs b c
  rw [bind_eq_ok]
  constructor
  · rintro ⟨a, c', ha, hb⟩
    obtain ⟨first, hfirst, rfl, hoffset⟩ := (hx _ _ _ _).mp ha
    obtain ⟨second, hsecond, hrest, hoffset'⟩ := (hf _ _ _ _ _).mp hb
    refine ⟨first ++ second, ⟨a, first, second, hfirst, hsecond, rfl⟩, ?_, ?_⟩
    · rw [hrest, List.append_assoc]
    · rw [hoffset', hoffset, List.length_append, Nat.add_assoc]
  · rintro ⟨taken, ⟨a, first, second, hfirst, hsecond, rfl⟩, rfl, hoffset⟩
    refine ⟨a, ⟨o + first.length, second ++ c.rest⟩, (hx _ _ _ _).mpr ⟨first, hfirst, ?_, rfl⟩,
      (hf _ _ _ _ _).mpr ⟨second, hsecond, rfl, ?_⟩⟩
    · exact List.append_assoc ..
    · rw [hoffset, List.length_append, Nat.add_assoc]

/-- A reader whose result is only passed on. -/
theorem Takes.map (f : α → β) (hx : Takes x R) :
    Takes (do return f (← x)) fun bs b => ∃ a, R bs a ∧ b = f a := by
  refine (hx.bind fun a => takes_pure (f a)).congr fun bs b => ?_
  constructor
  · rintro ⟨a, first, _, ha, ⟨rfl, rfl⟩, rfl⟩
    exact ⟨a, by rwa [List.append_nil], rfl⟩
  · rintro ⟨a, ha, rfl⟩
    exact ⟨a, bs, [], ha, ⟨rfl, rfl⟩, (List.append_nil _).symm⟩

theorem takes_throw (e : Fault) : Takes (throw e : Reader α) fun _ _ => False := by
  intro o bs a c
  simp [throw, throwThe, MonadExceptOf.throw, EStateM.throw]

/-- A check that has to pass. -/
theorem takes_unless {p : Prop} [Decidable p] {detail : String} (hx : Takes x R) :
    Takes (if p then malformed detail else x) fun bs a => ¬ p ∧ R bs a := by
  split
  · next h => exact (takes_throw (.classFormat detail)).congr (by simp [h])
  · next h => exact hx.congr (by simp [h])

theorem takes_ofExcept (o : Except Fault α) : Takes (ofExcept o) fun bs a => o = .ok a ∧ bs = [] := by
  cases o with
  | ok a => exact (takes_pure a).congr fun bs b => by rw [Except.ok.injEq, eq_comm]
  | error e => exact (takes_throw e).congr (by simp)

/-! ### Numbers -/

@[simp] theorem length_bytes2 (n : UInt16) : (bytes2 n).length = 2 := rfl

@[simp] theorem length_bytes4 (n : UInt32) : (bytes4 n).length = 4 := rfl

theorem bytes2_ofBytes (a b : UInt8) : bytes2 (a.toUInt16 <<< 8 ||| b.toUInt16) = [a, b] := by
  have hhigh : ((a.toUInt16 <<< 8 ||| b.toUInt16) >>> 8).toUInt8 = a := by
    apply UInt8.eq_of_toBitVec_eq
    apply BitVec.eq_of_getLsbD_eq
    intro i hi
    interval_cases i <;> simp
  have hlow : (a.toUInt16 <<< 8 ||| b.toUInt16).toUInt8 = b := by
    apply UInt8.eq_of_toBitVec_eq
    apply BitVec.eq_of_getLsbD_eq
    intro i hi
    interval_cases i <;> simp
  rw [bytes2, hhigh, hlow]

theorem beNat_bytes2 (n : UInt16) : beNat (bytes2 n) = n.toNat := by
  have := n.toNat_lt
  simp [beNat, bytes2, Nat.shiftRight_eq_div_pow]
  omega

theorem beNat_bytes4 (n : UInt32) : beNat (bytes4 n) = n.toNat := by
  have := n.toNat_lt
  simp [beNat, bytes4, Nat.shiftRight_eq_div_pow]
  omega

theorem beNat_bytes8 (n : UInt64) : beNat (bytes8 n) = n.toNat := by
  have := n.toNat_lt
  simp [beNat, bytes8, bytes4, Nat.shiftRight_eq_div_pow]
  omega

theorem beNat_append (bs : List UInt8) (b : UInt8) : beNat (bs ++ [b]) = beNat bs * 256 + b.toNat := by
  rw [beNat, List.foldl_append]
  rfl

theorem beNat_lt (bs : List UInt8) : beNat bs < 256 ^ bs.length := by
  induction bs using List.reverseRecOn with
  | nil => decide
  | append_singleton bs b ih =>
    have := b.toNat_lt
    rw [beNat_append, List.length_append, List.length_singleton, pow_succ]
    omega

/-- A number has one spelling in each width. -/
theorem eq_of_beNat_eq {bs bs' : List UInt8} (hlength : bs.length = bs'.length)
    (h : beNat bs = beNat bs') : bs = bs' := by
  induction bs using List.reverseRecOn generalizing bs' with
  | nil => exact (List.length_eq_zero_iff.mp hlength.symm).symm
  | append_singleton bs b ih =>
    rcases List.eq_nil_or_concat' bs' with rfl | ⟨bs', b', rfl⟩
    · simp at hlength
    · rw [beNat_append, beNat_append] at h
      have := b.toNat_lt
      have := b'.toNat_lt
      rw [ih (by simpa using hlength) (by omega), UInt8.toNat_inj.mp (by omega : b.toNat = b'.toNat)]

theorem splitOnto_eq_some {taken rest bs rest' : List UInt8} {n : Nat} :
    splitOnto taken n rest = some (bs, rest') ↔
      ∃ first, bs = taken.reverse ++ first ∧ rest = first ++ rest' ∧ first.length = n := by
  induction n generalizing taken rest with
  | zero =>
    rw [splitOnto, Option.some.injEq, Prod.mk.injEq]
    constructor
    · rintro ⟨rfl, rfl⟩
      exact ⟨[], by simp, rfl, rfl⟩
    · rintro ⟨first, rfl, rfl, hlength⟩
      obtain rfl := List.length_eq_zero_iff.mp hlength
      simp
  | succ n ih =>
    cases rest with
    | nil =>
      refine ⟨fun h => (by cases h), ?_⟩
      rintro ⟨first, -, hnil, hlength⟩
      rw [(List.append_eq_nil_iff.mp hnil.symm).1] at hlength
      cases hlength
    | cons b rest =>
      rw [splitOnto, ih]
      constructor
      · rintro ⟨first, rfl, rfl, rfl⟩
        exact ⟨b :: first, by simp, rfl, rfl⟩
      · rintro ⟨first, rfl, hcons, hlength⟩
        cases first with
        | nil => cases hlength
        | cons b' first =>
          cases hcons
          exact ⟨first, by simp, rfl, by simpa using hlength⟩

theorem takes_bytes (n : Nat) : Takes (bytes n) fun bs l => bs = l ∧ l.length = n := by
  rintro o bs l ⟨o', rest⟩
  unfold bytes
  rcases h : splitOnto [] n bs with _ | ⟨l', rest'⟩
  · simp only [reduceCtorEq, false_iff]
    rintro ⟨taken, ⟨rfl, rfl⟩, rfl, -⟩
    rw [splitOnto_eq_some.mpr ⟨taken, rfl, rfl, rfl⟩] at h
    cases h
  · simp only [EStateM.Result.ok.injEq, Cursor.mk.injEq]
    obtain ⟨first, hfirst, rfl, rfl⟩ := splitOnto_eq_some.mp h
    obtain rfl : l' = first := hfirst
    constructor
    · rintro ⟨rfl, rfl, rfl⟩
      exact ⟨_, ⟨rfl, rfl⟩, rfl, rfl⟩
    · rintro ⟨_, ⟨rfl, hlength⟩, happend, rfl⟩
      obtain ⟨rfl, rfl⟩ := List.append_inj happend hlength.symm
      exact ⟨rfl, rfl, rfl⟩

theorem takes_u1 : Takes u1 fun bs b => bs = [b] := by
  rintro o bs b ⟨o', rest⟩
  cases bs with
  | nil => simp [u1]
  | cons a bs =>
    simp only [u1, EStateM.Result.ok.injEq, Cursor.mk.injEq, exists_eq_left, List.cons_append,
      List.nil_append, List.cons.injEq, List.length_singleton, and_assoc]
    constructor <;> rintro ⟨rfl, rfl, rfl⟩ <;> exact ⟨rfl, rfl, rfl⟩

theorem takes_u2 : Takes u2 fun bs n => bs = bytes2 n := by
  rintro o bs n ⟨o', rest⟩
  have hshort (bs : List UInt8) (h : bs.length < 2) : ¬ bs = bytes2 n ++ rest := by
    rintro rfl
    simp [bytes2] at h
  rcases bs with _ | ⟨a, _ | ⟨b, bs⟩⟩
  · simp only [u2, reduceCtorEq, exists_eq_left, false_iff]
    exact fun h => hshort [] (by simp) h.1
  · simp only [u2, reduceCtorEq, exists_eq_left, false_iff]
    exact fun h => hshort [a] (by simp) h.1
  · simp only [u2, EStateM.Result.ok.injEq, Cursor.mk.injEq, exists_eq_left]
    constructor
    · rintro ⟨rfl, rfl, rfl⟩
      rw [bytes2_ofBytes]
      exact ⟨rfl, rfl⟩
    · rintro ⟨happend, rfl⟩
      rw [bytes2] at happend
      cases happend
      exact ⟨Bytecode.toUInt16_bytes n, rfl, rfl⟩

/-- A number that is put together from `k` bytes. -/
theorem takes_number {k : Nat} (ofNat : Nat → β) {spell : β → List UInt8}
    (hlength : ∀ n, (spell n).length = k) (hofNat : ∀ n, ofNat (beNat (spell n)) = n)
    (hspell : ∀ n < 256 ^ k, beNat (spell (ofNat n)) = n) :
    Takes (do return ofNat (beNat (← bytes k))) fun bs n => bs = spell n := by
  refine ((takes_bytes k).map fun bs => ofNat (beNat bs)).congr fun bs n => ?_
  constructor
  · rintro ⟨_, ⟨rfl, rfl⟩, rfl⟩
    exact eq_of_beNat_eq (hlength _).symm (hspell _ (beNat_lt bs)).symm
  · rintro rfl
    exact ⟨_, ⟨rfl, hlength n⟩, (hofNat n).symm⟩

theorem takes_u4 : Takes u4 fun bs n => bs = bytes4 n := by
  refine takes_number Nat.toUInt32 (fun _ => rfl) (fun n => ?_) fun n hn => ?_
  · rw [beNat_bytes4]
    exact UInt32.ofNat_toNat
  · rw [beNat_bytes4, Nat.toUInt32_eq, UInt32.toNat_ofNat']
    exact Nat.mod_eq_of_lt hn

theorem takes_u8 : Takes u8 fun bs n => bs = bytes8 n := by
  refine takes_number Nat.toUInt64 (fun _ => rfl) (fun n => ?_) fun n hn => ?_
  · rw [beNat_bytes8]
    exact UInt64.ofNat_toNat
  · rw [beNat_bytes8, Nat.toUInt64_eq, UInt64.toNat_ofNat']
    exact Nat.mod_eq_of_lt hn

theorem takes_i4 : Takes i4 fun bs n => bs = bytes4 n.toUInt32 := by
  refine (takes_u4.map UInt32.toInt32).congr fun bs n => ?_
  constructor
  · rintro ⟨m, rfl, rfl⟩
    rfl
  · rintro rfl
    exact ⟨n.toUInt32, rfl, rfl⟩

theorem takes_i8 : Takes i8 fun bs n => bs = bytes8 n.toUInt64 := by
  refine (takes_u8.map UInt64.toInt64).congr fun bs n => ?_
  constructor
  · rintro ⟨m, rfl, rfl⟩
    rfl
  · rintro rfl
    exact ⟨n.toUInt64, rfl, rfl⟩

/-! ### Parts -/

/-- Bytes that are set aside for a reader of their own. -/
theorem takes_sub {f : Cursor → Reader β} {n : Nat} {T : List UInt8 → List UInt8 → β → Prop}
    (hf : ∀ inner, Takes (f (.ofBytes inner)) (T inner)) :
    Takes (sub n >>= f) fun bs b => ∃ inner rest, inner.length = n ∧ T inner rest b ∧ bs = inner ++ rest := by
  unfold sub
  rw [bind_assoc]
  simp only [pure_bind]
  refine ((takes_bytes n).bind hf).congr fun bs b => ?_
  constructor
  · rintro ⟨inner, _, rest, ⟨rfl, hlength⟩, hb, rfl⟩
    exact ⟨_, rest, hlength, hb, rfl⟩
  · rintro ⟨inner, rest, hlength, hb, rfl⟩
    exact ⟨inner, _, rest, ⟨rfl, hlength⟩, hb, rfl⟩

/-- What is read inside of other bytes takes none of those ahead. -/
theorem takes_within (hx : Takes x R) (inner : List UInt8) :
    Takes (within (.ofBytes inner) x) fun bs p => bs = [] ∧
      ∃ taken, R taken p.1 ∧ inner = taken ++ p.2.rest ∧ p.2.offset = taken.length := by
  rintro o bs ⟨a, left⟩ ⟨o', rest⟩
  have hinner := hx 0 inner a left
  simp only [Nat.zero_add] at hinner
  simp only [← hinner]
  unfold within Cursor.ofBytes
  rcases x ⟨0, inner⟩ with ⟨a', left'⟩ | ⟨e, left'⟩
  · simp only [EStateM.Result.ok.injEq, Prod.mk.injEq, Cursor.mk.injEq]
    constructor
    · rintro ⟨⟨rfl, rfl⟩, rfl, rfl⟩
      exact ⟨[], ⟨rfl, rfl, rfl⟩, rfl, rfl⟩
    · rintro ⟨_, ⟨rfl, rfl, rfl⟩, rfl, rfl⟩
      exact ⟨⟨rfl, rfl⟩, rfl, rfl⟩
  · simp

/-! ### Lists -/

section

variable {P : α → Prop} {spell : α → List UInt8}

theorem takes_timesOnto (hx : Takes x fun bs a => P a ∧ bs = spell a) (read : List α) (n : Nat) :
    Takes (timesOnto x read n) fun bs l => ∃ as : List α, l = read.reverse ++ as ∧ as.length = n ∧
      (∀ a ∈ as, P a) ∧ bs = as.flatMap spell := by
  induction n generalizing read with
  | zero =>
    refine (takes_pure read.reverse).congr fun bs l => ?_
    constructor
    · rintro ⟨rfl, rfl⟩
      exact ⟨[], by simp, rfl, by simp, rfl⟩
    · rintro ⟨as, rfl, hlength, -, rfl⟩
      obtain rfl := List.length_eq_zero_iff.mp hlength
      exact ⟨List.append_nil _, rfl⟩
  | succ n ih =>
    refine (hx.bind fun a => ih (a :: read)).congr fun bs l => ?_
    constructor
    · rintro ⟨a, first, second, ⟨ha, rfl⟩, ⟨as, rfl, rfl, has, rfl⟩, rfl⟩
      exact ⟨a :: as, by simp, rfl, List.forall_mem_cons.mpr ⟨ha, has⟩, rfl⟩
    · rintro ⟨as, rfl, hlength, has, rfl⟩
      cases as with
      | nil => cases hlength
      | cons a as =>
        obtain ⟨ha, has⟩ := List.forall_mem_cons.mp has
        exact ⟨a, _, _, ⟨ha, rfl⟩, ⟨as, by simp, by simpa using hlength, has, rfl⟩, rfl⟩

/-- The bytes of a list behind its 16-bit count. -/
def countedBytes (spell : α → List UInt8) (l : List α) : List UInt8 :=
  bytes2 l.length.toUInt16 ++ l.flatMap spell

theorem length_countedBytes (spell : α → List UInt8) (l : List α) :
    (countedBytes spell l).length = 2 + (l.flatMap spell).length := by
  rw [countedBytes, List.length_append, length_bytes2]

theorem toNat_toUInt16 {n : Nat} (h : n ≤ 0xFFFF) : n.toUInt16.toNat = n := by
  rw [Nat.toUInt16_eq, UInt16.toNat_ofNat']
  omega

theorem takes_counted (hx : Takes x fun bs a => P a ∧ bs = spell a) :
    Takes (counted x) fun bs l => (l.length ≤ 0xFFFF ∧ ∀ a ∈ l, P a) ∧ bs = countedBytes spell l := by
  refine (takes_u2.bind fun n => takes_timesOnto hx [] n.toNat).congr fun bs l => ?_
  constructor
  · rintro ⟨n, _, _, rfl, ⟨as, has, hlength, hall, rfl⟩, rfl⟩
    obtain rfl : l = as := has
    refine ⟨⟨hlength ▸ Nat.le_of_lt_succ n.toNat_lt, hall⟩, ?_⟩
    rw [countedBytes, hlength, Nat.toUInt16_eq, UInt16.ofNat_toNat]
  · rintro ⟨⟨hcount, hall⟩, rfl⟩
    exact ⟨l.length.toUInt16, _, _, rfl, ⟨l, rfl, (toNat_toUInt16 hcount).symm, hall, rfl⟩, rfl⟩

end

/-! ### Whole runs of bytes -/

/-- Whether a reader succeeds exactly on the bytes that a relation allows for its result with nothing
behind them. -/
def TakesAll (x : Reader α) (R : List UInt8 → α → Prop) : Prop :=
  ∀ (o : Nat) (bs : List UInt8) (a : α) (c : Cursor),
    x ⟨o, bs⟩ = .ok a c ↔ R bs a ∧ c = ⟨o + bs.length, []⟩

theorem TakesAll.congr (hx : TakesAll x R) (h : ∀ bs a, R bs a ↔ S bs a) : TakesAll x S := by
  intro o bs a c
  rw [hx o bs a c, h]

theorem takesAll_atEnd {detail : Cursor → String} (a : α) : TakesAll (do
      let left ← get
      if !left.atEnd then malformed (detail left)
      return a) fun bs b => bs = [] ∧ b = a := by
  intro o bs b c
  rw [bind_eq_ok]
  simp only [get, getThe, MonadStateOf.get, EStateM.get, EStateM.Result.ok.injEq, Cursor.atEnd]
  constructor
  · rintro ⟨_, _, ⟨rfl, rfl⟩, h⟩
    cases bs with
    | nil =>
      cases h
      exact ⟨⟨rfl, rfl⟩, rfl⟩
    | cons => cases h
  · rintro ⟨⟨rfl, rfl⟩, rfl⟩
    exact ⟨_, _, ⟨rfl, rfl⟩, rfl⟩

theorem Takes.bindAll {f : α → Reader β} {T : α → List UInt8 → β → Prop} (hx : Takes x R)
    (hf : ∀ a, TakesAll (f a) (T a)) : TakesAll (x >>= f) fun bs b =>
      ∃ a first second, R first a ∧ T a second b ∧ bs = first ++ second := by
  intro o bs b c
  rw [bind_eq_ok]
  constructor
  · rintro ⟨a, c', ha, hb⟩
    obtain ⟨first, hfirst, rfl, hoffset⟩ := (hx _ _ _ _).mp ha
    obtain ⟨hsecond, rfl⟩ := (hf _ _ _ _ _).mp hb
    refine ⟨⟨a, first, _, hfirst, hsecond, rfl⟩, ?_⟩
    rw [hoffset, List.length_append, Nat.add_assoc]
  · rintro ⟨⟨a, first, second, hfirst, hsecond, rfl⟩, rfl⟩
    refine ⟨a, ⟨o + first.length, second⟩, (hx _ _ _ _).mpr ⟨first, hfirst, rfl, rfl⟩,
      (hf _ _ _ _ _).mpr ⟨hsecond, ?_⟩⟩
    rw [List.length_append, Nat.add_assoc]

theorem takesAll_unless {p : Prop} [Decidable p] {detail : String} (hx : TakesAll x R) :
    TakesAll (if p then malformed detail else x) fun bs a => ¬ p ∧ R bs a := by
  split
  · next h =>
    intro o bs a c
    simp [malformed, throw, throwThe, MonadExceptOf.throw, EStateM.throw, h]
  · next h => exact hx.congr (by simp [h])

end Jvm.ClassFile.Reader
