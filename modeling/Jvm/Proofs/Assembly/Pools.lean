import Mathlib
import Jvm.Assembly.Pool

/-! # What a pool under construction holds

The index that a pool hands out for an entry leads to the constants of that entry (`Pool.Names`), then and
in every pool that grows out of it (`Pool.Extends`), as long as the pool has not run over: an index above
the greatest usable one comes around to small ones again. -/

namespace Jvm.Assembly

open ClassFile

theorem mem_of_lookup {α β : Type} [BEq α] [LawfulBEq α] {l : List (α × β)} {a : α} {b : β}
    (h : l.lookup a = some b) : (a, b) ∈ l := by
  obtain ⟨l₁, l₂, heq, -⟩ := List.lookup_eq_some_iff.mp h
  rw [heq]
  simp

namespace Pool

/-- The constant at an index. -/
def at? (p : Pool) (i : UInt16) : Option Constant :=
  if i = 0 then none else p.entries[i.toNat - 1]?

/-- Whether a constant is at an index, unless the pool has run over. -/
def Holds (p : Pool) (i : UInt16) (c : Constant) : Prop := p.overflow = false → p.at? i = some c

/-- Whether the constants of a member reference of the kind that `make` makes are at an index. -/
def NamesMember (p : Pool) (i : UInt16) (make : UInt16 → UInt16 → Constant)
    (owner name descriptor : String) : Prop :=
  ∃ cls both className memberName type, p.Holds i (make cls both) ∧ p.Holds cls (.classRef className) ∧
    p.Holds className (.utf8 owner) ∧ p.Holds both (.nameAndType memberName type) ∧
    p.Holds memberName (.utf8 name) ∧ p.Holds type (.utf8 descriptor)

/-- Whether the constants of an entry are at an index and where they refer to. -/
def Names (p : Pool) (i : UInt16) : Entry → Prop
  | .utf8 s => p.Holds i (.utf8 s)
  | .integer v => p.Holds i (.integer v)
  | .float bits => p.Holds i (.float bits)
  | .long v => p.Holds i (.long v)
  | .double bits => p.Holds i (.double bits)
  | .classRef name => ∃ j, p.Holds i (.classRef j) ∧ p.Holds j (.utf8 name)
  | .string s => ∃ j, p.Holds i (.string j) ∧ p.Holds j (.utf8 s)
  | .nameAndType name descriptor =>
    ∃ j k, p.Holds i (.nameAndType j k) ∧ p.Holds j (.utf8 name) ∧ p.Holds k (.utf8 descriptor)
  | .fieldRef owner name descriptor => p.NamesMember i .fieldRef owner name descriptor
  | .methodRef owner name descriptor => p.NamesMember i .methodRef owner name descriptor
  | .interfaceMethodRef owner name descriptor =>
    p.NamesMember i .interfaceMethodRef owner name descriptor
  | .raw c => p.Holds i c

/-- Whether a pool has what another one has, at the same indices. -/
structure Extends (p p' : Pool) : Prop where
  entries : p.entries.toList <+: p'.entries.toList
  overflow : p.overflow = true → p'.overflow = true

theorem Extends.refl (p : Pool) : p.Extends p := ⟨List.prefix_rfl, id⟩

theorem Extends.trans {p q r : Pool} (hpq : p.Extends q) (hqr : q.Extends r) : p.Extends r :=
  ⟨hpq.entries.trans hqr.entries, hqr.overflow ∘ hpq.overflow⟩

theorem Extends.fits {p p' : Pool} (hext : p.Extends p') (hfits : p'.overflow = false) : p.overflow = false :=
  Bool.eq_false_iff.mpr fun hover => Bool.false_ne_true (hfits.symm.trans (hext.overflow hover))

theorem Extends.holds {p p' : Pool} (hext : p.Extends p') {i : UInt16} {c : Constant}
    (h : p.Holds i c) : p'.Holds i c := by
  intro hfits
  have hat := h (hext.fits hfits)
  unfold at? at hat ⊢
  split at hat
  · cases hat
  · next hne =>
    obtain ⟨more, hmore⟩ := hext.entries
    rw [if_neg hne, ← Array.getElem?_toList]
    rw [← Array.getElem?_toList] at hat
    rw [← hmore, List.getElem?_append_left (List.getElem?_eq_some_iff.mp hat).1]
    exact hat

theorem Extends.namesMember {p p' : Pool} (hext : p.Extends p') {i : UInt16}
    {make : UInt16 → UInt16 → Constant} {owner name descriptor : String}
    (h : p.NamesMember i make owner name descriptor) :
    p'.NamesMember i make owner name descriptor := by
  obtain ⟨cls, both, className, memberName, type, h₁, h₂, h₃, h₄, h₅, h₆⟩ := h
  exact ⟨cls, both, className, memberName, type, hext.holds h₁, hext.holds h₂, hext.holds h₃,
    hext.holds h₄, hext.holds h₅, hext.holds h₆⟩

theorem Extends.names {p p' : Pool} (hext : p.Extends p') {i : UInt16} {e : Entry}
    (h : p.Names i e) : p'.Names i e := by
  cases e with
  | classRef name =>
    obtain ⟨j, hi, hj⟩ := h
    exact ⟨j, hext.holds hi, hext.holds hj⟩
  | string s =>
    obtain ⟨j, hi, hj⟩ := h
    exact ⟨j, hext.holds hi, hext.holds hj⟩
  | nameAndType name descriptor =>
    obtain ⟨j, k, hi, hj, hk⟩ := h
    exact ⟨j, k, hext.holds hi, hext.holds hj, hext.holds hk⟩
  | fieldRef | methodRef | interfaceMethodRef => exact hext.namesMember h
  | utf8 | integer | float | long | double | raw => exact hext.holds h

/-- Whether a pool knows only constants that it holds. -/
def Sound (p : Pool) : Prop := ∀ c i, (c, i) ∈ p.known → p.Holds i c

theorem sound_empty : Pool.empty.Sound := by
  intro c i h
  cases h

theorem extends_add (p : Pool) (c : Constant) : p.Extends (p.add c).2 where
  entries := by
    rw [add]
    dsimp only
    split <;> simp
  overflow h := by
    rw [add]
    simp [h]

theorem holds_add (p : Pool) (c : Constant) : (p.add c).2.Holds (p.add c).1 c := by
  intro hfits
  have hindex : p.entries.size + 1 ≤ maxIndex := by
    simp only [add, Bool.or_eq_false_iff, decide_eq_false_iff_not, Nat.not_lt] at hfits
    exact hfits.2
  have hnat : (p.entries.size + 1).toUInt16.toNat = p.entries.size + 1 := by
    rw [Nat.toUInt16_eq, UInt16.toNat_ofNat']
    unfold maxIndex at hindex
    omega
  have hne : (p.entries.size + 1).toUInt16 ≠ 0 := by
    intro hzero
    rw [hzero] at hnat
    exact absurd hnat (by simp)
  unfold at? add
  dsimp only
  rw [if_neg hne, hnat, Nat.add_sub_cancel]
  split
  · rw [Array.getElem?_push, if_neg (by simp), Array.getElem?_push, if_pos rfl]
  · rw [Array.getElem?_push, if_pos rfl]

theorem Sound.add {p : Pool} (hp : p.Sound) (c : Constant) : (p.add c).2.Sound :=
  fun d i h => (extends_add p c).holds (hp d i h)

/-- What asking a pool for constants comes to, where `What` says what is at the index. -/
structure Gives (b : Build UInt16) (What : Pool → UInt16 → Prop) : Prop where
  sound : ∀ p : Pool, p.Sound → (b p).2.Sound
  grows : ∀ p : Pool, p.Extends (b p).2
  there : ∀ p : Pool, p.Sound → What (b p).2 (b p).1

theorem gives_index (c : Constant) : Gives (index c) fun p i => p.Holds i c := by
  have hknown (p : Pool) (i : UInt16) (h : p.known.lookup c = some i) : index c p = (i, p) := by
    change p.intern c = _
    rw [intern, h]
  have hnew (p : Pool) (h : p.known.lookup c = none) : index c p =
      ((p.add c).1, { (p.add c).2 with known := (c, (p.add c).1) :: (p.add c).2.known }) := by
    change p.intern c = _
    rw [intern, h]
  refine ⟨fun p hp => ?_, fun p => ?_, fun p hp => ?_⟩
  all_goals rcases h : p.known.lookup c with _ | i
  · rw [hnew p h]
    rintro d i (_ | ⟨_, hmem⟩)
    · exact holds_add p c
    · exact hp.add c d i hmem
  · rw [hknown p i h]
    exact hp
  · rw [hnew p h]
    exact ⟨(extends_add p c).entries, (extends_add p c).overflow⟩
  · rw [hknown p i h]
    exact .refl p
  · rw [hnew p h]
    exact holds_add p c
  · rw [hknown p i h]
    exact hp c i (mem_of_lookup h)

/-- Asking for one thing and then for another one. -/
theorem Gives.bind {b : Build UInt16} {f : UInt16 → Build UInt16} {What : Pool → UInt16 → Prop}
    {Then : UInt16 → Pool → UInt16 → Prop} (hb : Gives b What) (hf : ∀ i, Gives (f i) (Then i))
    (hwhat : ∀ {p p' : Pool}, p.Extends p' → ∀ {i : UInt16}, What p i → What p' i) :
    Gives (b >>= f) fun p j => ∃ i, What p i ∧ Then i p j where
  sound p hp := (hf _).sound _ (hb.sound p hp)
  grows p := (hb.grows p).trans ((hf _).grows _)
  there p hp :=
    ⟨_, hwhat ((hf _).grows _) (hb.there p hp), (hf _).there _ (hb.sound p hp)⟩

theorem Gives.mono {b : Build UInt16} {What What' : Pool → UInt16 → Prop} (hb : Gives b What)
    (himp : ∀ p i, What p i → What' p i) : Gives b What' :=
  ⟨hb.sound, hb.grows, fun p hp => himp _ _ (hb.there p hp)⟩

theorem gives_classRef (name : String) : Gives (classRef name) fun p i => p.Names i (.classRef name) :=
  ((gives_index (.utf8 name)).bind (fun j => gives_index (.classRef j)) fun h => h.holds).mono
    fun _ _ ⟨j, hj, hi⟩ => ⟨j, hi, hj⟩

theorem gives_nameAndType (name descriptor : String) :
    Gives (nameAndType name descriptor) fun p i => p.Names i (.nameAndType name descriptor) := by
  refine ((gives_index (.utf8 name)).bind (fun j => (gives_index (.utf8 descriptor)).bind
    (fun k => gives_index (.nameAndType j k)) fun h => h.holds) fun h => h.holds).mono ?_
  rintro p i ⟨j, hj, k, hk, hi⟩
  exact ⟨j, k, hi, hj, hk⟩

theorem gives_member (make : UInt16 → UInt16 → Constant) (owner name descriptor : String) :
    Gives (member make owner name descriptor) fun p i =>
      p.NamesMember i make owner name descriptor := by
  refine ((gives_classRef owner).bind (fun c => (gives_nameAndType name descriptor).bind
    (fun nt => gives_index (make c nt)) fun h => h.names) fun h => h.names).mono ?_
  rintro p i ⟨c, ⟨cn, hc, hcn⟩, nt, ⟨n, d, hnt, hn, hd⟩, hi⟩
  exact ⟨c, nt, cn, n, d, hi, hc, hcn, hnt, hn, hd⟩

/-- **The index handed out for an entry names it.** -/
theorem gives_entry (e : Entry) : Gives (entry e) fun p i => p.Names i e := by
  cases e with
  | utf8 | integer | float | long | double => exact gives_index _
  | classRef name => exact gives_classRef name
  | string s =>
    exact ((gives_index (.utf8 s)).bind (fun j => gives_index (.string j)) fun h => h.holds).mono
      fun _ _ ⟨j, hj, hi⟩ => ⟨j, hi, hj⟩
  | nameAndType name descriptor => exact gives_nameAndType name descriptor
  | fieldRef | methodRef | interfaceMethodRef => exact gives_member _ _ _ _
  | raw c =>
    exact ⟨fun p hp => hp.add c, fun p => extends_add p c, fun p _ => holds_add p c⟩

/-- The pool after some entries were asked for, one after the other. -/
def holding (entries : List Entry) : Pool := entries.foldl (fun p e => (entry e p).2) empty

theorem sound_holding (entries : List Entry) : (holding entries).Sound := by
  have hfold : ∀ (entries : List Entry) (p : Pool), p.Sound →
      (entries.foldl (fun p e => (entry e p).2) p).Sound := by
    intro entries
    induction entries with
    | nil => exact fun _ hp => hp
    | cons e entries ih => exact fun p hp => ih _ ((gives_entry e).sound p hp)
  exact hfold entries empty sound_empty

/-- Entries that are added as they are stand behind the others, as long as there are indices for them. -/
theorem foldl_raw {p : Pool} {n : Nat} (hfits : p.overflow = false) (hsize : p.entries.size + n ≤ maxIndex) :
    (List.replicate n (Entry.raw (.integer 0))).foldl (fun p e => (entry e p).2) p =
      { p with entries := p.entries ++ Array.replicate n (Constant.integer 0) } := by
  induction n with
  | zero => simp
  | succ n ih =>
    rw [List.replicate_succ', List.foldl_append, ih (by omega)]
    change Pool.mk ((p.entries ++ Array.replicate n (Constant.integer 0)).push (.integer 0)) p.known
      (p.overflow || decide (maxIndex < _ + 1)) = _
    simp only [Array.size_append, Array.size_replicate]
    rw [Array.replicate_succ, Array.append_push, hfits, decide_eq_false (by omega)]
    rfl

end Pool

end Jvm.Assembly
