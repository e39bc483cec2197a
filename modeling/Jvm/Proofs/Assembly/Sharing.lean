import Mathlib
import Jvm.Proofs.Assembly.Counts
import Jvm.Proofs.Assembly.Described

/-! # What indices of constants stand for

A pool under construction gives the entries that it is asked for their indices. As long as it does not run
over, an index keeps standing for its entry, entries that are given by content share an index exactly if they
are the same, and the second slot of a long or double constant is the place of nothing (`numbered`). -/

namespace Jvm.Assembly

open ClassFile

/-! ### Entries in constant pools -/

/-- Whether an entry is asked for by its content, and not added as it is. -/
def Entry.ByContent : Entry → Prop
  | .raw _ => False
  | _ => True

/-- The entry that is spelt by the constant at an index and those that it leads to. -/
def spelling (pool : ConstantPool) (i : UInt16) : Except Fault Entry := do
  match ← pool.get i with
  | .utf8 s => return .utf8 s
  | .integer v => return .integer v
  | .float bits => return .float bits
  | .long v => return .long v
  | .double bits => return .double bits
  | .classRef _ => return .classRef (← pool.className i)
  | .string text => return .string (← pool.utf8 text)
  | .nameAndType _ _ =>
    let (name, descriptor) ← pool.nameAndType i
    return .nameAndType name descriptor
  | .fieldRef _ _ =>
    let m ← pool.member i
    return .fieldRef m.owner m.name m.descriptor
  | .methodRef _ _ =>
    let m ← pool.member i
    return .methodRef m.owner m.name m.descriptor
  | .interfaceMethodRef _ _ =>
    let m ← pool.member i
    return .interfaceMethodRef m.owner m.name m.descriptor
  | c => return .raw c

/-- Whether an index of a pool stands for an entry. -/
def StandsFor (pool : ConstantPool) (i : UInt16) : Entry → Prop
  | .raw c => pool.get i = .ok c
  | e => spelling pool i = .ok e

/-- Whether an index is the second one of a long or double constant. -/
def SecondSlot (pool : ConstantPool) (i : UInt16) : Prop :=
  ∃ j c, pool.get j = .ok c ∧ c.isWide = true ∧ i.toNat = j.toNat + 1

namespace Pool

variable {p q r : Pool} {i : UInt16} {e : Entry} {entries : List Entry}

section

variable (hfits : p.overflow = false)
include hfits

theorem member_finished {make : UInt16 → UInt16 → Constant} {owner name descriptor : String}
    (h : p.NamesMember i make owner name descriptor) (hmake : ∀ a b, make a b ≠ .unusable)
    (hrefers : ∀ a b, p.finished.get i = .ok (make a b) → p.finished.Refers i a b) :
    (∃ a b, p.finished.get i = .ok (make a b)) ∧ p.finished.member i = .ok ⟨owner, name, descriptor⟩ := by
  obtain ⟨cls, both, className, memberName, type, hi, hcls, hclassName, hboth, hmemberName, htype⟩ := h
  have hget := get_finished hfits hi (hmake cls both)
  exact ⟨⟨cls, both, hget⟩, ConstantPool.member_eq_ok_iff.mpr ⟨cls, both, hrefers cls both hget,
    className_finished hfits ⟨className, hcls, hclassName⟩,
    (nameAndType_finished hfits ⟨memberName, type, hboth, hmemberName, htype⟩).2⟩⟩

/-- The constants that an index leads to spell the entry. -/
theorem spelling_of_names (he : e.ByContent) (h : p.Names i e) : spelling p.finished i = .ok e := by
  unfold spelling
  cases e with
  | raw c => exact he.elim
  | utf8 | integer | float | long | double =>
    rw [get_finished hfits h (by simp)]
    rfl
  | classRef name =>
    obtain ⟨j, hi, hj⟩ := h
    rw [get_finished hfits hi (by simp), className_finished hfits ⟨j, hi, hj⟩]
    rfl
  | string s =>
    obtain ⟨j, hi, hj⟩ := h
    rw [get_finished hfits hi (by simp)]
    change (p.finished.utf8 j >>= fun s => .ok (Entry.string s)) = _
    rw [utf8_finished hfits hj]
    rfl
  | nameAndType name descriptor =>
    obtain ⟨j, k, hi, hj, hk⟩ := h
    rw [get_finished hfits hi (by simp), (nameAndType_finished hfits ⟨j, k, hi, hj, hk⟩).2]
    rfl
  | fieldRef owner name descriptor =>
    obtain ⟨⟨a, b, hget⟩, hmember⟩ := member_finished hfits h (by simp) fun a b => .inl
    rw [hget, hmember]
    rfl
  | methodRef owner name descriptor =>
    obtain ⟨⟨a, b, hget⟩, hmember⟩ := member_finished hfits h (by simp) fun a b h => .inr (.inl h)
    rw [hget, hmember]
    rfl
  | interfaceMethodRef owner name descriptor =>
    obtain ⟨⟨a, b, hget⟩, hmember⟩ := member_finished hfits h (by simp) fun a b h => .inr (.inr h)
    rw [hget, hmember]
    rfl

theorem standsFor_of_names (he : e ≠ .raw .unusable) (h : p.Names i e) : StandsFor p.finished i e := by
  cases e with
  | raw c => exact get_finished hfits h fun hc => he (hc ▸ rfl)
  | _ => exact spelling_of_names hfits trivial h

end

/-- What an index stands for is at a constant. -/
theorem exists_of_standsFor {pool : ConstantPool} (h : StandsFor pool i e) : ∃ c, pool.get i = .ok c := by
  cases e with
  | raw c => exact ⟨c, h⟩
  | _ =>
    obtain ⟨c, hc, -⟩ := except_bind_eq_ok.mp h
    exact ⟨c, hc⟩

theorem spelling_of_standsFor {pool : ConstantPool} (he : e.ByContent) (h : StandsFor pool i e) :
    spelling pool i = .ok e := by
  cases e with
  | raw c => exact he.elim
  | _ => exact h

/-! ### Asking again -/

/-- Whether a pool knows the indices that another one knows. -/
def Remembers (p q : Pool) : Prop := ∀ c i, p.known.lookup c = some i → q.known.lookup c = some i

/-- What asking a second time comes to: the same index, and nothing is added. -/
structure Settles (b : Build UInt16) : Prop where
  keeps : ∀ p : Pool, p.Remembers (b p).2
  again : ∀ p r : Pool, (b p).2.Remembers r → b r = ((b p).1, r)

theorem Remembers.index (h : p.Remembers q) (c : Constant) : p.Remembers (index c q).2 := by
  intro d i hd
  change (q.intern c).2.known.lookup d = some i
  unfold intern
  split
  · exact h d i hd
  · next hnew =>
    have hne : d ≠ c := by
      rintro rfl
      rw [h d i hd] at hnew
      cases hnew
    change List.lookup d ((c, _) :: q.known) = _
    rw [List.lookup_cons, beq_false_of_ne hne]
    exact h d i hd

theorem settles_index (c : Constant) : Settles (index c) where
  keeps p := Remembers.index (fun _ _ => id) c
  again p r h := by
    have hknown : r.known.lookup c = some (index c p).1 := by
      refine h c _ ?_
      change (p.intern c).2.known.lookup c = some (p.intern c).1
      unfold intern
      split
      · next hfound => exact hfound
      · exact List.lookup_cons_self
    change r.intern c = _
    rw [intern, hknown]

theorem Settles.bind {b : Build UInt16} {f : UInt16 → Build UInt16} (hb : Settles b) (hf : ∀ i, Settles (f i)) :
    Settles (b >>= f) where
  keeps p c i h := (hf _).keeps _ c i (hb.keeps p c i h)
  again p r h := by
    have hfirst : b r = ((b p).1, r) := hb.again p r fun c i hc => h c i ((hf _).keeps _ c i hc)
    change f (b r).1 (b r).2 = _
    rw [hfirst]
    exact (hf _).again _ r h

theorem settles_classRef (name : String) : Settles (classRef name) :=
  (settles_index (.utf8 name)).bind fun j => settles_index (.classRef j)

theorem settles_nameAndType (name descriptor : String) : Settles (nameAndType name descriptor) :=
  (settles_index (.utf8 name)).bind fun j => (settles_index (.utf8 descriptor)).bind fun k =>
    settles_index (.nameAndType j k)

theorem settles_member (make : UInt16 → UInt16 → Constant) (owner name descriptor : String) :
    Settles (member make owner name descriptor) :=
  (settles_classRef owner).bind fun c => (settles_nameAndType name descriptor).bind fun nt =>
    settles_index (make c nt)

/-- **An entry that was asked for by content keeps its index.** -/
theorem settles_entry (he : e.ByContent) : Settles (entry e) := by
  cases e with
  | raw c => exact he.elim
  | utf8 | integer | float | long | double => exact settles_index _
  | classRef name => exact settles_classRef name
  | string s => exact (settles_index (.utf8 s)).bind fun j => settles_index (.string j)
  | nameAndType name descriptor => exact settles_nameAndType name descriptor
  | fieldRef | methodRef | interfaceMethodRef => exact settles_member _ _ _ _

theorem Asks.remembers {P : Entry → Prop} (h : Asks P p q) : p.Remembers q := by
  induction h with
  | refl => exact fun _ _ => id
  | tail _ hstep ih =>
    obtain ⟨e, -, rfl⟩ := hstep
    exact kept_entry (P := p.Remembers) (fun c q hq => hq.index c) (fun c q hq => hq) e ih

/-! ### Second slots -/

/-- Whether nothing is in the second slots of a pool. -/
def Spaced (p : Pool) : Prop :=
  ∀ (n : Nat) (c : Constant), p.entries[n]? = some c → c.isWide = true → p.entries[n + 1]? = some .unusable

/-- What adding a constant adds. -/
theorem toList_add (c : Constant) (p : Pool) : (p.add c).2.entries.toList = p.entries.toList ++ c.slots := by
  unfold add Constant.slots
  dsimp only
  split <;> simp

theorem Spaced.add (hp : p.Spaced) (c : Constant) : (p.add c).2.Spaced := by
  intro n d hd hwide
  rw [← Array.getElem?_toList, toList_add] at hd ⊢
  rcases Nat.lt_or_ge n p.entries.toList.length with hlt | hge
  · rw [List.getElem?_append_left hlt, Array.getElem?_toList] at hd
    have hnext := hp n d hd hwide
    rw [← Array.getElem?_toList] at hnext
    rw [List.getElem?_append_left (List.getElem?_eq_some_iff.mp hnext).1, hnext]
  · obtain ⟨k, rfl⟩ := Nat.exists_eq_add_of_le hge
    rw [List.getElem?_append_right (by omega), Nat.add_sub_cancel_left] at hd
    rw [List.getElem?_append_right (by omega), Nat.add_assoc, Nat.add_sub_cancel_left]
    unfold Constant.slots at hd ⊢
    split at hd
    · next hc =>
      match k with
      | 0 => rw [if_pos hc]; rfl
      | 1 => cases hd; cases hwide
      | k + 2 => cases hd
    · next hc =>
      match k with
      | 0 => cases hd; exact (hc hwide).elim
      | k + 1 => cases hd

theorem Spaced.index (hp : p.Spaced) (c : Constant) : (index c p).2.Spaced := by
  change (p.intern c).2.Spaced
  unfold intern
  split
  · exact hp
  · exact hp.add c

theorem Spaced.asks {P : Entry → Prop} (hp : p.Spaced) (h : Asks P p q) : q.Spaced := by
  induction h with
  | refl => exact hp
  | tail _ hstep ih =>
    obtain ⟨e, -, rfl⟩ := hstep
    exact kept_entry (P := Spaced) (fun c p hp => hp.index c) (fun c p hp => hp.add c) e ih

theorem spaced_empty : Pool.empty.Spaced := fun n c h => by simp [empty] at h

/-- There is no constant in a second slot. -/
theorem Spaced.get_ne_ok (hp : p.Spaced) (hi : SecondSlot p.finished i) (c : Constant) : p.finished.get i ≠ .ok c := by
  intro hget
  obtain ⟨j, d, hd, hwide, hij⟩ := hi
  obtain ⟨hentry, -⟩ := ConstantPool.get_eq_ok_iff.mp hd
  obtain ⟨hentry', hne⟩ := ConstantPool.get_eq_ok_iff.mp hget
  have hfront (n : Nat) : p.finished.entries[n + 1]? = p.entries[n]? := by
    rw [finished, ← Array.getElem?_toList, ← Array.getElem?_toList]
    simp
  cases hj : j.toNat with
  | zero =>
    rw [hj] at hentry
    have hzero : d = .unusable := by simpa [finished] using hentry.symm
    rw [hzero] at hwide
    cases hwide
  | succ n =>
    rw [hj, hfront] at hentry
    rw [hij, hj, hfront, hp n d hentry hwide] at hentry'
    exact hne (Option.some.inj hentry').symm

/-! ### Lists of entries -/

/-- The indices that are handed out for entries which are asked for one after the other. -/
def indices (entries : List Entry) : List UInt16 := (entries.mapM entry empty).1

theorem mapM_entry (p : Pool) (entries : List Entry) :
    (entries.mapM entry p).2 = entries.foldl (fun p e => (entry e p).2) p ∧
      (entries.mapM entry p).1.length = entries.length ∧
      ∀ k : Nat, (entries.mapM entry p).1[k]? =
        entries[k]?.map fun e => (entry e ((entries.take k).foldl (fun p e => (entry e p).2) p)).1 := by
  induction entries generalizing p with
  | nil => exact ⟨rfl, rfl, fun k => rfl⟩
  | cons e entries ih =>
    obtain ⟨hpool, hlength, hindices⟩ := ih (entry e p).2
    have hcons : (e :: entries).mapM entry p =
        ((entry e p).1 :: (entries.mapM entry (entry e p).2).1, (entries.mapM entry (entry e p).2).2) := by
      rw [List.mapM_cons]
      rfl
    rw [hcons]
    refine ⟨hpool, congrArg Nat.succ hlength, fun k => ?_⟩
    cases k with
    | zero => rfl
    | succ k => exact hindices k

theorem length_indices (entries : List Entry) : (indices entries).length = entries.length :=
  (mapM_entry empty entries).2.1

theorem getElem?_indices (entries : List Entry) (k : Nat) :
    (indices entries)[k]? = entries[k]?.map fun e => (entry e (holding (entries.take k))).1 :=
  (mapM_entry empty entries).2.2 k

theorem asks_foldl (p : Pool) (entries : List Entry) :
    Asks (fun _ => True) p (entries.foldl (fun p e => (entry e p).2) p) := by
  induction entries generalizing p with
  | nil => exact .refl
  | cons e entries ih => exact (asks_entry trivial p).trans (ih _)

theorem asks_take {m n : Nat} (h : m ≤ n) (entries : List Entry) :
    Asks (fun _ => True) (holding (entries.take m)) (holding (entries.take n)) := by
  obtain ⟨k, rfl⟩ := Nat.exists_eq_add_of_le h
  rw [List.take_add, holding, holding, List.foldl_append]
  exact asks_foldl _ _

/-- The pool behind an entry. -/
theorem holding_take_succ {k : Nat} (hk : entries[k]? = some e) :
    holding (entries.take (k + 1)) = (entry e (holding (entries.take k))).2 := by
  rw [List.take_add_one, hk, Option.toList_some, holding, List.foldl_append]
  rfl

/-- An index keeps naming its entry. -/
theorem names_of_indices {k n : Nat} (hi : (indices entries)[k]? = some i) (he : entries[k]? = some e) (hn : k < n) :
    (holding (entries.take n)).Names i e := by
  rw [getElem?_indices, he] at hi
  obtain rfl := Option.some.inj hi
  have hthere := (gives_entry e).there _ (sound_holding (entries.take k))
  rw [← holding_take_succ he] at hthere
  exact (asks_take hn entries).grows.names hthere

/-- An entry that is asked for again gets the index that it got. -/
theorem index_again {j k : Nat} (hj : entries[j]? = some e) (hk : entries[k]? = some e) (hjk : j < k)
    (he : e.ByContent) : (indices entries)[k]? = (indices entries)[j]? := by
  have hremembers := (asks_take (Nat.succ_le_of_lt hjk) entries).remembers
  rw [Nat.succ_eq_add_one, holding_take_succ hj] at hremembers
  rw [getElem?_indices, getElem?_indices, hj, hk, Option.map_some, Option.map_some,
    (settles_entry he).again _ _ hremembers]

theorem overflow_take (hfits : (holding entries).overflow = false) (n : Nat) :
    (holding (entries.take n)).overflow = false := by
  rcases Nat.le_total n entries.length with hn | hn
  · refine (asks_take hn entries).grows.fits ?_
    rwa [List.take_length]
  · rwa [List.take_of_length_le hn]

/-- No constant is in front of all others. -/
theorem one_le_of_get {c : Constant} (h : p.finished.get i = .ok c) : 1 ≤ i := by
  obtain ⟨hentry, hne⟩ := ConstantPool.get_eq_ok_iff.mp h
  refine UInt16.le_iff_toNat_le.mpr (Nat.one_le_iff_ne_zero.mpr fun hzero => ?_)
  rw [hzero] at hentry
  exact hne (by simpa [finished] using hentry.symm)

section

variable (hraw : .raw .unusable ∉ entries) (hfits : (holding entries).overflow = false)
include hraw hfits

/-- An index keeps standing for its entry. -/
theorem standsFor_of_indices {k n : Nat} (hi : (indices entries)[k]? = some i) (he : entries[k]? = some e)
    (hn : k < n) : StandsFor (holding (entries.take n)).finished i e :=
  standsFor_of_names (overflow_take hfits n) (fun h => hraw (h ▸ List.mem_of_getElem? he)) (names_of_indices hi he hn)

theorem exists_of_mem_indices (hi : i ∈ indices entries) : ∃ c, (holding entries).finished.get i = .ok c := by
  obtain ⟨k, hk, rfl⟩ := List.getElem_of_mem hi
  have hlt : k < entries.length := length_indices entries ▸ hk
  have hstands := standsFor_of_indices hraw hfits (List.getElem?_eq_getElem hk) (List.getElem?_eq_getElem hlt) hlt
  rw [List.take_length] at hstands
  exact exists_of_standsFor hstands

/-- Entries that are given by content share an index only if they are the same. -/
theorem eq_of_indices {j k : Nat} {e' : Entry} (hi : (indices entries)[j]? = some i) (he : entries[j]? = some e)
    (hi' : (indices entries)[k]? = some i) (he' : entries[k]? = some e') (hcontent : e.ByContent)
    (hcontent' : e'.ByContent) : e = e' := by
  -- both are spelt as soon as both were asked for
  have hj := standsFor_of_indices hraw hfits hi he (n := max j k + 1) (by omega)
  have hk := standsFor_of_indices hraw hfits hi' he' (n := max j k + 1) (by omega)
  exact Except.ok.inj ((spelling_of_standsFor hcontent hj).symm.trans (spelling_of_standsFor hcontent' hk))

end

/-- What the indices that are handed out for entries, one after the other, have to do with these. -/
structure Numbered (entries : List Entry) (given : List UInt16) : Prop where
  length : given.length = entries.length
  positive : ∀ i ∈ given, 1 ≤ i
  spelt : ∀ (k : Nat) i e, given[k]? = some i → entries[k]? = some e →
    ∀ n, k < n → n ≤ entries.length → StandsFor (holding (entries.take n)).finished i e
  shared : ∀ (j k : Nat) i i' e e', given[j]? = some i → entries[j]? = some e → given[k]? = some i' →
    entries[k]? = some e' → e.ByContent → e'.ByContent → (i = i' ↔ e = e')
  secondSlots : ∀ i, SecondSlot (holding entries).finished i →
    i ∉ given ∧ ∀ c, (holding entries).finished.get i ≠ .ok c

/-- **Indices of a pool that does not run over stand for their entries, and for nothing else.** -/
theorem numbered (hraw : .raw .unusable ∉ entries) (hfits : (holding entries).overflow = false) :
    Numbered entries (indices entries) where
  length := length_indices entries
  positive i hi := by
    obtain ⟨c, hc⟩ := exists_of_mem_indices hraw hfits hi
    exact one_le_of_get hc
  spelt k i e hi he n hn _ := standsFor_of_indices hraw hfits hi he hn
  shared j k i i' e e' hi he hi' he' hcontent hcontent' := by
    constructor
    · rintro rfl
      exact eq_of_indices hraw hfits hi he hi' he' hcontent hcontent'
    · rintro rfl
      rcases Nat.lt_trichotomy j k with hlt | rfl | hlt
      · exact Option.some.inj (hi.symm.trans ((index_again he he' hlt hcontent).symm.trans hi'))
      · exact Option.some.inj (hi.symm.trans hi')
      · exact Option.some.inj (hi.symm.trans ((index_again he' he hlt hcontent).trans hi'))
  secondSlots i hi := by
    have hnone := (spaced_empty.asks (asks_foldl empty entries)).get_ne_ok hi
    refine ⟨fun hmem => ?_, hnone⟩
    obtain ⟨c, hc⟩ := exists_of_mem_indices hraw hfits hmem
    exact hnone c hc

/-- Entries of one and two slots, one of them as it is, and two that share their parts with the others. -/
def mixed : List Entry := [.long 7, .utf8 "A", .raw (.double 0), .classRef "A", .float 0, .long 7, .string "A"]

theorem numbered_mixed : (.raw .unusable ∉ mixed ∧ (holding mixed).overflow = false) ∧
    Numbered mixed [1, 3, 4, 6, 7, 1, 8] := by
  have hfits : (holding mixed).overflow = false := by cbv
  have hindices : indices mixed = [1, 3, 4, 6, 7, 1, 8] := by cbv
  refine ⟨⟨by decide, hfits⟩, ?_⟩
  rw [← hindices]
  exact numbered (by decide) hfits

end Pool

end Jvm.Assembly
