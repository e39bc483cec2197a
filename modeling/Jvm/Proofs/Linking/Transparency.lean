import Mathlib
import Jvm.Proofs.Linking.Delegation
import Jvm.Proofs.Linking.Recalling

/-! # References come to the same in any order

The classes of two registries with the same class paths are the same but for their numbers, where loading has
come to both (`matching_twins`), so what is looked up in both agrees (`agrees_lookUp`). Together with what is
kept about references this says that it cannot be seen that anything is kept, nor in which order references
were resolved (`resolvesTransparently`) — but for the class that a failure by circularity names. -/

namespace Jvm.Linking

open ClassFile Assembly
open Resolution (Kind)

section

variable {paths : ClassPaths} {α β γ δ ε : Type} {r r' s s' : Registry}

/-! ## Outcomes that agree -/

/-- Whether two failures are the same, or both by circularity. -/
inductive Fault.Akin : Fault → Fault → Prop
  | same (e : Fault) : Fault.Akin e e
  | circular (name name' : String) : Fault.Akin (.classCircularity name) (.classCircularity name')

/-- Whether two outcomes are both values or both failures, which are related. -/
inductive Alike (F : Fault → Fault → Prop) (S : α → β → Prop) : Except Fault α → Except Fault β → Prop
  | ok {a : α} {b : β} (h : S a b) : Alike F S (.ok a) (.ok b)
  | error {e e' : Fault} (h : F e e') : Alike F S (.error e) (.error e')

/-! ## Classes of two registries -/

namespace Registry

/-- Whether classes of two registries are the same but for their numbers. -/
def Twins (r s : Registry) (i j : ClassId) : Prop := ∃ v, r.Shows v i ∧ s.Shows v j

theorem Shows.exists_class {v : LinkedClass} {i : ClassId} (h : r.Shows v i) :
    ∃ c, r.table.class? i = some c ∧ c.key = v.key := by
  obtain ⟨c, hc, rfl⟩ := h
  exact ⟨c, hc, rfl⟩

theorem Shows.unique {v w : LinkedClass} {i : ClassId} (hv : r.Shows v i) (hw : r.Shows w i) : v = w := by
  obtain ⟨c, hc, rfl⟩ := hv
  obtain ⟨d, hd, rfl⟩ := hw
  rw [Option.some.inj (hc.symm.trans hd)]

theorem Linked.eq_of_shows (hr : r.Linked) {v : LinkedClass} {i j : ClassId} (hi : r.Shows v i)
    (hj : r.Shows v j) : i = j := by
  obtain ⟨c, hc, hckey⟩ := hi.exists_class
  obtain ⟨d, hd, hdkey⟩ := hj.exists_class
  exact hr.eq_of_key hc hd (hckey.trans hdkey.symm)

theorem Twins.mono {i j : ClassId} (h : r.Twins s i j) (hr : r.WellFormed) (hs : s.WellFormed)
    (hr' : r.table.Within r'.table) (hs' : s.table.Within s'.table) : r'.Twins s' i j := by
  obtain ⟨v, hi, hj⟩ := h
  exact ⟨v, hi.mono hr hr', hj.mono hs hs'⟩

/-- Only the classes of a registry count. -/
theorem shows_congr (h : r'.table = r.table) : r'.Shows = r.Shows := by
  have hcanonical : r'.canonicalOf = r.canonicalOf := by
    funext id
    rw [canonicalOf, canonicalOf, h]
  funext v id
  rw [Shows, Shows, h, hcanonical]

theorem twins_congr (hr : r'.table = r.table) (hs : s'.table = s.table) : r'.Twins s' = r.Twins s := by
  funext i j
  rw [Twins, Twins, shows_congr hr, shows_congr hs]

/-- Whether a registry goes by what the class paths give. -/
structure Sound (paths : ClassPaths) (r : Registry) : Prop where
  wellFormed : r.WellFormed
  faithful : r.Faithful paths

theorem Sound.congr (hr : r.Sound paths) (hstates : r'.states.size = r.states.size)
    (htable : r'.table = r.table) (hloaded : r'.loaded = r.loaded) : r'.Sound paths where
  wellFormed := hr.wellFormed.congr hstates htable hloaded
  faithful := by
    refine ⟨fun key id h => ?_, fun key e h => ?_⟩
    · rw [shows_congr htable]
      exact hr.faithful.found key id (hloaded ▸ h)
    · exact hr.faithful.failed key e (hloaded ▸ h)

section

variable (hr : r.Sound paths) (hs : s.Sound paths)

include hr hs

/-- A loader and a name have one class. -/
theorem twins_of_key {i j : ClassId} {c d : LinkedClass} (hc : r.table.class? i = some c)
    (hd : s.table.class? j = some d) (h : c.key = d.key) : r.Twins s i j := by
  obtain ⟨v, hv, hi⟩ := hr.faithful.found _ i (hr.wellFormed.linked.found i c hc)
  obtain ⟨w, hw, hj⟩ := hs.faithful.found _ j (hs.wellFormed.linked.found j d hd)
  have hkey : (c.loader, c.name) = (d.loader, d.name) := h
  rw [hkey] at hv
  obtain rfl : v = w := Except.ok.inj (hv.unique hw)
  exact ⟨v, hi, hj⟩

/-- So have the numbers by names. -/
theorem twins_of_canonicalOf {i j : ClassId} (hi : ∃ c, r.table.class? i = some c)
    (hj : ∃ d, s.table.class? j = some d) (h : r.canonicalOf i = s.canonicalOf j) : r.Twins s i j := by
  obtain ⟨c, hc⟩ := hi
  obtain ⟨d, hd⟩ := hj
  rw [canonicalOf_of_class? hc, canonicalOf_of_class? hd] at h
  exact twins_of_key hr hs hc hd (canonicalId_injective h)

end

end Registry

theorem forall₂_of_map_eq {f : α → γ} {g : β → γ} {P : α → β → Prop} : ∀ {as : List α} {bs : List β},
    as.map f = bs.map g → (∀ a ∈ as, ∀ b ∈ bs, f a = g b → P a b) → List.Forall₂ P as bs
  | [], [], _, _ => .nil
  | a :: as, b :: bs, h, hP => by
    obtain ⟨hab, h⟩ := List.cons.inj h
    exact .cons (hP a List.mem_cons_self b List.mem_cons_self hab) <|
      forall₂_of_map_eq h fun a ha b hb => hP a (List.mem_cons_of_mem _ ha) b (List.mem_cons_of_mem _ hb)

namespace Registry

/-- Classes that are shown alike are the same for lookups. -/
theorem Twins.exists_matches {i j : ClassId} (h : r.Twins s i j) (hr : r.Sound paths) (hs : s.Sound paths) :
    ∃ c d, r.table.class? i = some c ∧ s.table.class? j = some d ∧ c.Matches (r.Twins s) d := by
  obtain ⟨v, ⟨c, hc, hv⟩, d, hd, hw⟩ := id h
  have heq : c.renumber r.canonicalOf = d.renumber s.canonicalOf := hv.symm.trans hw
  have hrefers : ∀ {a b : ClassId}, c.Refers a → d.Refers b → r.canonicalOf a = s.canonicalOf b →
      r.Twins s a b :=
    fun ha hb => twins_of_canonicalOf hr hs (hr.wellFormed.exists_of_refers hc ha)
      (hs.wellFormed.exists_of_refers hd hb)
  refine ⟨c, d, hc, hd, ?_, ?_, (congrArg LinkedClass.fields heq).symm, ?_⟩
  · have hsuper : c.superclass.map r.canonicalOf = d.superclass.map s.canonicalOf :=
      congrArg LinkedClass.superclass heq
    cases hcs : c.superclass <;> cases hds : d.superclass <;> rw [hcs, hds] at hsuper
    · exact .none
    · cases hsuper
    · cases hsuper
    · exact .some (hrefers (.inl (by simp [LinkedClass.parents, hcs]))
        (.inl (by simp [LinkedClass.parents, hds])) (Option.some.inj hsuper))
  · have hinterfaces : c.interfaces.map r.canonicalOf = d.interfaces.map s.canonicalOf :=
      congrArg LinkedClass.interfaces heq
    exact forall₂_of_map_eq hinterfaces fun a ha b hb => hrefers (.inl (by simp [LinkedClass.parents, ha]))
      (.inl (by simp [LinkedClass.parents, hb]))
  · have hmethods : c.methods.map (·.renumber r.canonicalOf) = d.methods.map (·.renumber s.canonicalOf) :=
      congrArg LinkedClass.methods heq
    refine forall₂_of_map_eq hmethods fun m hm m' hm' hmm => ⟨?_, ?_⟩
    · exact hrefers (.inr (.inl ⟨m, hm, rfl⟩)) (.inr (.inl ⟨m', hm', rfl⟩)) (congrArg Method.owner hmm)
    · exact (congrArg (fun n : Method => { n with owner := m'.owner }) hmm).symm

/-- **The tables of two registries match** where loading has come to the same classes. -/
theorem matching_twins (hr : r.Sound paths) (hs : s.Sound paths) : r.table.Matching (r.Twins s) s.table where
  unique := by
    refine ⟨fun i j k hik hjk => ?_, fun i j k hij hik => ?_⟩
    · obtain ⟨v, hi, hk⟩ := hik
      obtain ⟨w, hj, hk'⟩ := hjk
      obtain rfl := hk.unique hk'
      exact hr.wellFormed.linked.eq_of_shows hi hj
    · obtain ⟨v, hi, hj⟩ := hij
      obtain ⟨w, hi', hk⟩ := hik
      obtain rfl := hi.unique hi'
      exact hs.wellFormed.linked.eq_of_shows hj hk
  classes _ _ h := h.exists_matches hr hs

end Registry

/-! ## Computations on two registries -/

/-- Whether a registry has more classes than another one, and goes by what the class paths give. -/
structure Registry.Advances (paths : ClassPaths) (r r' : Registry) : Prop where
  sound : r'.Sound paths
  table : r.table.Within r'.table

theorem Registry.Advances.trans {r₁ r₂ : Registry} (h₁ : r.Advances paths r₁) (h₂ : r₁.Advances paths r₂) :
    r.Advances paths r₂ :=
  ⟨h₂.sound, h₁.table.trans h₂.table⟩

namespace Linker

/-- Whether computations on two registries come to the same. -/
structure Agrees (paths : ClassPaths) (S : Registry → Registry → α → β → Prop) (x : Linker α) (y : Linker β)
    (r s : Registry) : Prop where
  left : r.Advances paths (x.leads r)
  right : s.Advances paths (y.leads s)
  outcomes : Alike Fault.Akin (S (x.leads r) (y.leads s)) (x.outcome r) (y.outcome s)

variable {S : Registry → Registry → α → β → Prop} {T : Registry → Registry → γ → δ → Prop}
  {x x' : Linker α} {y y' : Linker β} {g : α → Linker γ} {h : β → Linker δ}

theorem agrees_ofExcept (hr : r.Sound paths) (hs : s.Sound paths) {a : Except Fault α} {b : Except Fault β}
    (hab : Alike Fault.Akin (S r s) a b) : Agrees paths S (ofExcept a) (ofExcept b) r s where
  left := by
    rw [leads_ofExcept]
    exact ⟨hr, .refl _⟩
  right := by
    rw [leads_ofExcept]
    exact ⟨hs, .refl _⟩
  outcomes := by
    rw [leads_ofExcept, leads_ofExcept, outcome_ofExcept, outcome_ofExcept]
    exact hab

/-- A pure step is the same in both. -/
theorem agrees_step {o : Except Fault ε} {g : ε → Linker α} {h : ε → Linker β} (hr : r.Sound paths)
    (hs : s.Sound paths) (hgh : ∀ a, Agrees paths S (g a) (h a) r s) :
    Agrees paths S (ofExcept o >>= g) (ofExcept o >>= h) r s := by
  cases o with
  | ok a => exact hgh a
  | error e => exact agrees_ofExcept hr hs (.error (.same e))

theorem agrees_pure (hr : r.Sound paths) (hs : s.Sound paths) {a : α} {b : β} (hab : S r s a b) :
    Agrees paths S (pure a) (pure b) r s :=
  agrees_ofExcept hr hs (.ok hab)

theorem agrees_throw (hr : r.Sound paths) (hs : s.Sound paths) (e : Fault) :
    Agrees paths S (throw e) (throw e) r s :=
  agrees_ofExcept hr hs (.error (.same e))

theorem Agrees.of_eq (hxy : Agrees paths S x' y' r s) (hx : x r = x' r) (hy : y s = y' s) :
    Agrees paths S x y r s := by
  obtain ⟨hleads, houtcome⟩ := leads_congr hx
  obtain ⟨hleads', houtcome'⟩ := leads_congr hy
  refine ⟨hleads ▸ hxy.left, hleads' ▸ hxy.right, ?_⟩
  rw [hleads, hleads', houtcome, houtcome']
  exact hxy.outcomes

/-- What two computations that agree come to, with where they lead. -/
theorem Agrees.cases (hxy : Agrees paths S x y r s) :
    (∃ a b r' s', x r = .ok a r' ∧ y s = .ok b s' ∧ r.Advances paths r' ∧ s.Advances paths s' ∧ S r' s' a b) ∨
      ∃ e e' r' s', x r = .error e r' ∧ y s = .error e' s' ∧ r.Advances paths r' ∧ s.Advances paths s' ∧
        Fault.Akin e e' := by
  obtain ⟨hleft, hright, houtcomes⟩ := hxy
  rcases hx : x r with ⟨a, r'⟩ | ⟨e, r'⟩ <;> rcases hy : y s with ⟨b, s'⟩ | ⟨e', s'⟩ <;>
    rw [leads, hx] at hleft houtcomes <;> rw [leads, hy] at hright houtcomes <;>
    rw [outcome, outcome, hx, hy] at houtcomes <;> cases houtcomes
  · exact .inl ⟨a, b, r', s', rfl, rfl, hleft, hright, by assumption⟩
  · exact .inr ⟨e, e', r', s', rfl, rfl, hleft, hright, by assumption⟩

theorem Agrees.bind (hxy : Agrees paths S x y r s)
    (hgh : ∀ a b r' s', r.Advances paths r' → s.Advances paths s' → S r' s' a b →
      Agrees paths T (g a) (h b) r' s') : Agrees paths T (x >>= g) (y >>= h) r s := by
  rcases hxy.cases with ⟨a, b, r', s', hx, hy, hr', hs', hab⟩ | ⟨e, e', r', s', hx, hy, hr', hs', he⟩
  · have hcontinued := hgh a b r' s' hr' hs' hab
    obtain ⟨hleads, houtcome⟩ := leads_bind_of_ok (g := g) hx
    obtain ⟨hleads', houtcome'⟩ := leads_bind_of_ok (g := h) hy
    refine ⟨hleads ▸ hr'.trans hcontinued.left, hleads' ▸ hs'.trans hcontinued.right, ?_⟩
    rw [hleads, hleads', houtcome, houtcome']
    exact hcontinued.outcomes
  · obtain ⟨hleads, houtcome⟩ := leads_of_error (bind_of_error (g := g) hx)
    obtain ⟨hleads', houtcome'⟩ := leads_of_error (bind_of_error (g := h) hy)
    refine ⟨hleads ▸ hr', hleads' ▸ hs', ?_⟩
    rw [houtcome, houtcome']
    exact .error he

theorem agrees_get {g : Registry → Linker α} {h : Registry → Linker β}
    (hgh : Agrees paths S (g r) (h s) r s) : Agrees paths S (get >>= g) (get >>= h) r s :=
  hgh.of_eq (bind_of_ok (get_eq r)) (bind_of_ok (get_eq s))

end Linker

open Linker

/-- Loading comes to the same in two registries. -/
theorem agrees_loadClass (hr : r.Sound paths) (hs : s.Sound paths) (loader : Loader) (name : String) :
    Agrees paths Registry.Twins (loadClass paths loader name) (loadClass paths loader name) r s := by
  have hleads : ∀ {r : Registry}, r.Sound paths → r.Advances paths ((loadClass paths loader name).leads r) :=
    fun hr => ⟨⟨wellFormed_leads (loader, name) hr.wellFormed,
      faithful_leads (loader, name) hr.wellFormed hr.faithful⟩,
      ((admits_buildsOn paths).load loader name _).leads.table⟩
  refine ⟨hleads hr, hleads hs, ?_⟩
  have hx := follows_load paths [] loader name hr.wellFormed hr.faithful (pending_nil _)
  have hy := follows_load paths [] loader name hs.wellFormed hs.faithful (pending_nil _)
  unfold loadClass
  rcases hrun : load paths [] loader name r with ⟨i, r'⟩ | ⟨e, r'⟩ <;>
    rcases hrun' : load paths [] loader name s with ⟨j, s'⟩ | ⟨e', s'⟩ <;>
    rw [leads, leads, outcome, outcome, hrun, hrun']
  · obtain ⟨-, v, hv, -, hi⟩ := hx.of_eq_ok hrun
    obtain ⟨-, w, hw, -, hj⟩ := hy.of_eq_ok hrun'
    obtain rfl : v = w := Except.ok.inj (hv.unique hw)
    exact .ok ⟨v, hi, hj⟩
  · obtain ⟨-, v, hv, -, -⟩ := hx.of_eq_ok hrun
    rcases (hy.of_eq_error hrun').2 with he | ⟨-, hhopeless⟩
    · cases hv.unique he
    · exact (hv.exists_seen hhopeless.run_eq_none).elim
  · obtain ⟨-, v, hv, -, -⟩ := hy.of_eq_ok hrun'
    rcases (hx.of_eq_error hrun).2 with he | ⟨-, hhopeless⟩
    · cases hv.unique he
    · exact (hv.exists_seen hhopeless.run_eq_none).elim
  · rcases (hx.of_eq_error hrun).2 with he | ⟨⟨n, rfl⟩, hhopeless⟩ <;>
      rcases (hy.of_eq_error hrun').2 with he' | ⟨⟨n', rfl⟩, hhopeless'⟩
    · obtain rfl : e = e' := Except.error.inj (he.unique he')
      exact .error (.same e)
    · exact (he.exists_seen hhopeless'.run_eq_none).elim
    · exact (he'.exists_seen hhopeless.run_eq_none).elim
    · exact .error (.circular n n')

/-- The class of a number is there in both registries, with the same names, constants and kind. -/
theorem agrees_getClass {S : Registry → Registry → α → β → Prop} {g : LinkedClass → Linker α}
    {h : LinkedClass → Linker β} {i j : ClassId} (hij : r.Twins s i j)
    (hgh : ∀ c d, c.loader = d.loader → c.name = d.name → c.pool = d.pool → c.isInterface = d.isInterface →
      Agrees paths S (g c) (h d) r s) :
    Agrees paths S (getClass i >>= g) (getClass j >>= h) r s := by
  obtain ⟨v, ⟨c, hc, hv⟩, d, hd, hw⟩ := hij
  have heq : c.renumber r.canonicalOf = d.renumber s.canonicalOf := hv.symm.trans hw
  have hinterface := congrArg LinkedClass.isInterface heq
  rw [LinkedClass.isInterface_renumber, LinkedClass.isInterface_renumber] at hinterface
  have hloader := congrArg LinkedClass.loader heq
  have hname := congrArg LinkedClass.name heq
  have hpool := congrArg LinkedClass.pool heq
  exact (hgh c d hloader hname hpool hinterface).of_eq (bind_of_ok (getClass_of_class? hc))
    (bind_of_ok (getClass_of_class? hd))

/-! ## References of two registries -/

namespace Resolution

/-- Whether references of two registries lead to the same but for the numbers of classes. -/
def Kind.Same (r s : Registry) : (k : Kind) → k.Result → k.Result → Prop
  | .classes => r.Twins s
  | .fields => ClassTable.ResolvedField.Matches (r.Twins s)
  | .methods => Method.Matches (r.Twins s)

theorem agrees_findClass (hr : r.Sound paths) (hs : s.Sound paths) {c d : LinkedClass}
    (hloader : c.loader = d.loader) (hpool : c.pool = d.pool) (index : UInt16) :
    Agrees paths Registry.Twins (findClass paths c index) (findClass paths d index) r s := by
  unfold findClass
  rw [hpool, hloader]
  exact agrees_step hr hs fun name => agrees_loadClass hr hs d.loader name

theorem agrees_findField (hr : r.Sound paths) (hs : s.Sound paths) {c d : LinkedClass}
    (hloader : c.loader = d.loader) (hpool : c.pool = d.pool) (index : UInt16) :
    Agrees paths (Kind.fields.Same · ·) (findField paths c index) (findField paths d index) r s := by
  unfold findField
  rw [hpool, hloader]
  refine agrees_step hr hs fun m => ?_
  refine (agrees_loadClass hr hs d.loader m.owner).bind fun i j r₁ s₁ hr₁ hs₁ hij => ?_
  have hfield := (Registry.matching_twins hr₁.sound hs₁.sound).field? hij (n := m.name) (d := m.descriptor)
  refine agrees_get ?_
  generalize r₁.table.field? i m.name m.descriptor = f at hfield
  generalize s₁.table.field? j m.name m.descriptor = f' at hfield
  cases hfield with
  | some hf => exact agrees_pure hr₁.sound hs₁.sound hf
  | none => exact agrees_throw hr₁.sound hs₁.sound _

/-- Whether two methods are found, or none, that are the same but for numbers. -/
def SameMethod (r s : Registry) : Option Method → Option Method → Prop :=
  Option.Rel (Method.Matches (r.Twins s))

theorem agrees_findInterfaceMethod (hr : r.Sound paths) (hs : s.Sound paths) {i j : ClassId}
    (hij : r.Twins s i j) (n d : String) :
    Agrees paths SameMethod (findInterfaceMethod paths i n d) (findInterfaceMethod paths j n d) r s := by
  have hdeclared := (Registry.matching_twins hr hs).declaredMethod? hij (n := n) (d := d)
  refine agrees_get ?_
  generalize r.table.declaredMethod? i n d = m at hdeclared
  generalize s.table.declaredMethod? j n d = m' at hdeclared
  cases hdeclared with
  | some hm => exact agrees_pure hr hs (.some hm)
  | none =>
    refine (agrees_loadClass hr hs .boot objectName).bind fun o o' r₁ s₁ hr₁ hs₁ ho => agrees_get ?_
    have hmatching := Registry.matching_twins hr₁.sound hs₁.sound
    have hij₁ : r₁.Twins s₁ i j := hij.mono hr.wellFormed hs.wellFormed hr₁.table hs₁.table
    refine agrees_pure hr₁.sound hs₁.sound (rel_or ?_ (hmatching.interfaceMethod? hij₁))
    exact rel_filter (hmatching.declaredMethod? ho) fun m m' hm => by rw [hm.same]; rfl

theorem agrees_findMethodIn (hr : r.Sound paths) (hs : s.Sound paths) {i j : ClassId}
    (hij : r.Twins s i j) (inInterface : Bool) (m : Member) :
    Agrees paths SameMethod (findMethodIn paths i inInterface m) (findMethodIn paths j inInterface m)
      r s := by
  refine agrees_getClass hij fun c d _ hname _ hinterface => ?_
  rw [hname, hinterface]
  cases inInterface <;> cases d.isInterface
  · exact agrees_get (agrees_pure hr hs ((Registry.matching_twins hr hs).method? hij))
  · exact agrees_throw hr hs _
  · exact agrees_throw hr hs _
  · exact agrees_findInterfaceMethod hr hs hij m.name m.descriptor

theorem agrees_findMethod (hr : r.Sound paths) (hs : s.Sound paths) {c d : LinkedClass}
    (hloader : c.loader = d.loader) (hpool : c.pool = d.pool) (index : UInt16) :
    Agrees paths (Kind.methods.Same · ·) (findMethod paths c index) (findMethod paths d index) r s := by
  unfold findMethod
  rw [hpool, hloader]
  refine agrees_step hr hs fun constant => agrees_step hr hs fun m => ?_
  refine (agrees_loadClass hr hs d.loader m.owner).bind fun i j r₁ s₁ hr₁ hs₁ hij => ?_
  refine (agrees_findMethodIn hr₁.sound hs₁.sound hij _ m).bind fun o o' r₂ s₂ hr₂ hs₂ ho => ?_
  cases ho with
  | some hm => exact agrees_pure hr₂.sound hs₂.sound hm
  | none => exact agrees_throw hr₂.sound hs₂.sound _

/-- **Looking a reference up comes to the same in two registries.** -/
theorem Kind.agrees_lookUp (k : Kind) (hr : r.Sound paths) (hs : s.Sound paths) {i j : ClassId}
    (hij : r.Twins s i j) (index : UInt16) :
    Agrees paths (k.Same · ·) (k.lookUp paths i index) (k.lookUp paths j index) r s := by
  refine agrees_getClass hij fun c d hloader _ hpool _ => ?_
  cases k with
  | classes => exact agrees_findClass hr hs hloader hpool index
  | fields => exact agrees_findField hr hs hloader hpool index
  | methods => exact agrees_findMethod hr hs hloader hpool index

theorem Kind.same_congr (k : Kind) (hr : r'.table = r.table) (hs : s'.table = s.table) :
    k.Same r' s' = k.Same r s := by
  cases k <;> simp only [Kind.Same, Registry.twins_congr hr hs]

end Resolution

/-! ## Requests without a teardown -/

/-- Whether a registry stays one that goes by what the class paths give. -/
def Registry.StaysSound (paths : ClassPaths) (r r' : Registry) : Prop := r.Sound paths → r'.Sound paths

instance (paths : ClassPaths) : IsTrans Registry (Registry.StaysSound paths) :=
  ⟨fun _ _ _ h₁ h₂ hr => h₂ (h₁ hr)⟩

theorem admits_staysSound (paths : ClassPaths) : Linker.Admits paths (Registry.StaysSound paths) where
  refl _ hr := hr
  load loader name _ := Linker.meets_of_leads fun hr => (agrees_loadClass hr hr loader name).left.sound
  resolved _ _ _ _ _ _ hr := hr.congr (by simp [Registry.modifyState]) rfl rfl

/-- What holds of a registry that has forgotten nothing. -/
structure Registry.Coherent (paths : ClassPaths) (r : Registry) : Prop extends r.Sound paths where
  recalls : r.Recalls paths

theorem Registry.coherent_empty (paths : ClassPaths) : Registry.empty.Coherent paths :=
  ⟨⟨wellFormed_empty, faithful_empty paths⟩, recalls_empty⟩

theorem Registry.Coherent.apply (h : r.Coherent paths) {q : Request} (hq : q.Transparent) :
    (q.apply paths r).Coherent paths where
  toSound := (admits_staysSound paths).apply
    (fun _ _ _ hr => hr.congr (by simp [Registry.modifyState]) rfl rfl)
    (fun _ _ hr => hr.congr rfl rfl rfl) (fun held h => (hq.ne_teardown held h).elim) h.toSound
  recalls := recalls_apply h.recalls h.wellFormed hq

theorem coherent_after (paths : ClassPaths) {requests : List Request} (h : ∀ q ∈ requests, q.Transparent) :
    (Registry.after paths requests).Coherent paths :=
  List.foldlRecOn requests _ (Registry.coherent_empty paths) fun _ hr q hq => hr.apply (h q hq)

/-- A registry has grown from where one of some requests led. -/
theorem extends_later (paths : ClassPaths) {requests later : List Request}
    (hrequests : ∀ q ∈ requests, q.Transparent) (hlater : ∀ q ∈ later, q.Transparent) {q : Request}
    (hq : q.Transparent) :
    (Registry.after paths (requests ++ q :: later)).Coherent paths ∧
      (q.apply paths (Registry.after paths requests)).Extends
        (Registry.after paths (requests ++ q :: later)) := by
  have hall : ∀ p ∈ requests ++ q :: later, p.Transparent :=
    List.forall_mem_append.2 ⟨hrequests, List.forall_mem_cons.2 ⟨hq, hlater⟩⟩
  exact ⟨coherent_after paths hall, (extends_after (fun _ hmem => hrequests _ hmem)
    (fun _ hmem => hlater _ hmem) hq.ne_teardown).2⟩

theorem Resolution.Kind.transparent_request (k : Kind) (source : ClassId) (index : UInt16) :
    (k.request source index).Transparent := by
  cases k <;> trivial

/-- What a program can rely on about references, as long as there is no teardown; failures may differ as said
with the order of requests. -/
structure ClassPaths.ResolvesTransparently (paths : ClassPaths) (F : Fault → Fault → Prop) : Prop where
  -- Resolving a reference comes to what looking it up comes to, whatever is known about it, and loads the
  -- same classes.
  fresh : ∀ requests, (∀ q ∈ requests, q.Transparent) → ∀ (k : Kind) source index,
    (k.resolve paths source index).outcome (Registry.after paths requests) =
        (k.lookUp paths source index).outcome (Registry.after paths requests) ∧
      ((k.resolve paths source index).leads (Registry.after paths requests)).SameClasses
        ((k.lookUp paths source index).leads (Registry.after paths requests))
  again : ∀ requests later, (∀ q ∈ requests, q.Transparent) → (∀ q ∈ later, q.Transparent) →
    ∀ (k : Kind) source index c, (Registry.after paths requests).table.class? source = some c →
      (k.resolve paths source index).outcome
          (Registry.after paths (requests ++ k.request source index :: later)) =
        (k.resolve paths source index).outcome (Registry.after paths requests)
  anyOrder : ∀ requests requests', (∀ q ∈ requests, q.Transparent) → (∀ q ∈ requests', q.Transparent) →
    ∀ i j c d, (Registry.after paths requests).table.class? i = some c →
      (Registry.after paths requests').table.class? j = some d → c.key = d.key → ∀ (k : Kind) index,
        Alike F (k.Same ((k.resolve paths i index).leads (Registry.after paths requests))
            ((k.resolve paths j index).leads (Registry.after paths requests')))
          ((k.resolve paths i index).outcome (Registry.after paths requests))
          ((k.resolve paths j index).outcome (Registry.after paths requests'))
  loadsAgain : ∀ requests later, (∀ q ∈ requests, q.Transparent) → (∀ q ∈ later, q.Transparent) →
    ∀ loader name,
      (loadClass paths loader name).outcome (Registry.after paths (requests ++ .load loader name :: later)) =
        (loadClass paths loader name).outcome (Registry.after paths requests)
  loadsAnyOrder : ∀ requests requests', (∀ q ∈ requests, q.Transparent) → (∀ q ∈ requests', q.Transparent) →
    ∀ loader name, Alike F
      (((loadClass paths loader name).leads (Registry.after paths requests)).Twins
        ((loadClass paths loader name).leads (Registry.after paths requests')))
      ((loadClass paths loader name).outcome (Registry.after paths requests))
      ((loadClass paths loader name).outcome (Registry.after paths requests'))

/-- **That references are kept cannot be seen**, nor in which order they were resolved, but for the class that
a failure by circularity names. -/
theorem resolvesTransparently (paths : ClassPaths) : paths.ResolvesTransparently Fault.Akin where
  fresh requests h k source index := (coherent_after paths h).recalls.resolve k source index
  again requests later hrequests hlater k source index c hc := by
    have hr := coherent_after paths hrequests
    obtain ⟨houtcome, hsame⟩ := hr.recalls.resolve k source index
    obtain ⟨hr', hextends⟩ := extends_later paths hrequests hlater (k.transparent_request source index)
    rw [k.apply_request] at hextends
    have hgrown : ((k.lookUp paths source index).leads (Registry.after paths requests)).Extends
        (Registry.after paths (requests ++ k.request source index :: later)) :=
      ⟨hsame.table ▸ hextends.table, hsame.loaded ▸ hextends.loaded⟩
    have hagain := (k.repeatable_lookUp hr.wellFormed hc index).again _ hgrown
    rw [(hr'.recalls.resolve k source index).1, houtcome]
    exact (leads_congr hagain).2.trans (outcome_ofExcept ..)
  anyOrder requests requests' h h' i j c d hc hd hkey k index := by
    have hr := coherent_after paths h
    have hs := coherent_after paths h'
    obtain ⟨houtcome, hsame⟩ := hr.recalls.resolve k i index
    obtain ⟨houtcome', hsame'⟩ := hs.recalls.resolve k j index
    have htwins := Registry.twins_of_key hr.toSound hs.toSound hc hd hkey
    rw [houtcome, houtcome', k.same_congr hsame.table hsame'.table]
    exact (k.agrees_lookUp hr.toSound hs.toSound htwins index).outcomes
  loadsAgain requests later hrequests hlater loader name := by
    have hr := coherent_after paths hrequests
    obtain ⟨-, hextends⟩ := extends_later paths hrequests hlater (q := .load loader name) trivial
    have hagain := (repeatable_loadClass hr.wellFormed loader name).again _ hextends
    exact (leads_congr hagain).2.trans (outcome_ofExcept ..)
  loadsAnyOrder requests requests' h h' loader name :=
    (agrees_loadClass (coherent_after paths h).toSound (coherent_after paths h').toSound loader name).outcomes

/-! ## Two classes that extend each other

The first one that is requested is the one that the failure of both names. -/

/-- Of two classes that extend each other the first one that is requested is named. -/
theorem loadClass_boot_of_circle {n m : String} {c d : ClassFile} (hc : paths.HasFile (.boot, n) c)
    (hd : paths.HasFile (.boot, m) d) (hcname : c.name = .ok n) (hdname : d.name = .ok m)
    (hcsuper : c.superName = .ok (some m)) (hdsuper : d.superName = .ok (some n)) (hne : m ≠ n)
    (hn : r.loaded[(Loader.boot, n)]? = none) (hm : r.loaded[(Loader.boot, m)]? = none) :
    loadClass paths .boot n r = .error (.classCircularity n)
      ((r.remember (.boot, m) (.error (.classCircularity n))).remember (.boot, n)
        (.error (.classCircularity n))) := by
  refine loadClass_boot_of_error hn (defineBy_of_superclass_error hc hcname hcsuper ?_)
  have hagain : load paths [(.boot, m), (.boot, n)] .boot n r = .error (.classCircularity n) r := by
    rw [load]
    exact define_of_mem hn (by simp)
  rw [load, define_of_fresh hm (by simpa using hne)]
  exact Linker.recorded_of_error (defineBy_of_superclass_error hd hdname hdsuper hagain)

end

namespace Ring

/-- The class file of the object class. -/
def objectBytes : List UInt8 :=
  [0xCA, 0xFE, 0xBA, 0xBE, 0, 0, 0, 52, 0, 7,
   1, 0, 16, 106, 97, 118, 97, 47, 108, 97, 110, 103, 47, 79, 98, 106, 101, 99, 116, 7, 0, 1,
   1, 0, 1, 65, 7, 0, 3, 1, 0, 1, 66, 7, 0, 5,
   0, 0x21, 0, 2, 0, 0, 0, 0, 0, 0, 0, 0, 0, 0]

/-- The class file of a class with a one-letter name, below another one. -/
def bytes (name superName : UInt8) : List UInt8 :=
  [0xCA, 0xFE, 0xBA, 0xBE, 0, 0, 0, 52, 0, 5,
   1, 0, 1, name, 7, 0, 1, 1, 0, 1, superName, 7, 0, 3,
   0, 0x21, 0, 2, 0, 4, 0, 0, 0, 0, 0, 0, 0, 0]

/-- The class paths. -/
def paths : ClassPaths where
  boot := .ofFiles [("java/lang/Object", objectBytes), ("A", bytes 65 66), ("B", bytes 66 65)]
  app := .empty

/-- The object class is requested. -/
def requests : List Request := [.load .boot "java/lang/Object"]

/-- The reference to `B` is resolved after it. -/
def requests' : List Request := [.load .boot "java/lang/Object", .resolveClass 0 6]

def objectFile : ClassFile :=
  Diamond.file #[.unusable, .utf8 "java/lang/Object", .classRef 1, .utf8 "A", .classRef 3, .utf8 "B",
    .classRef 5] 0x21 0 [] []

/-- The class file of a class below another one. -/
def file (name superName : String) : ClassFile :=
  Diamond.file #[.unusable, .utf8 name, .classRef 1, .utf8 superName, .classRef 3] 0x21 4 [] []

theorem parse_objectBytes : ClassFile.parse objectBytes = .ok objectFile := by rfl

theorem hasFile_a : paths.HasFile (.boot, "A") (file "A" "B") := ⟨by decide, _, rfl, by rfl⟩

theorem hasFile_b : paths.HasFile (.boot, "B") (file "B" "A") := ⟨by decide, _, rfl, by rfl⟩

def object : LinkedClass := Diamond.linked "java/lang/Object" .ordinary none [] [] .empty objectFile

theorem linkedClass_object :
    linkedClass 0 .boot "java/lang/Object" objectFile none [] = .ok (object, #[]) := by
  decide +kernel

theorem holds_object : (Registry.after paths requests).Holds [object] :=
  holds_apply_load holds_empty (by decide) (by decide) rfl parse_objectBytes rfl rfl
    (fun _ => rfl) (fun s hs => by cases hs) rfl (fun p hp => by cases hp) linkedClass_object rfl
    (by decide)

/-- The reference to `A` leads to the request for it. -/
theorem lookUp_a {r : Registry} (h : r.table.class? 0 = some object) :
    Kind.classes.lookUp paths 0 4 r = loadClass paths .boot "A" r :=
  bind_of_ok (getClass_of_class? h)

theorem lookUp_b {r : Registry} (h : r.table.class? 0 = some object) :
    Kind.classes.lookUp paths 0 6 r = loadClass paths .boot "B" r :=
  bind_of_ok (getClass_of_class? h)

theorem transparent_requests : ∀ q ∈ requests, q.Transparent := by simp [requests, Request.Transparent]

theorem transparent_requests' : ∀ q ∈ requests', q.Transparent := by simp [requests', Request.Transparent]

/-- The object class stays. -/
theorem class?_object : (Registry.after paths requests').table.class? 0 = some object :=
  (persists_apply (q := .resolveClass 0 6) _ (by rintro _ ⟨⟩)
    (coherent_after paths transparent_requests).wellFormed).2.table 0 object (holds_object.class? 0)

/-- After the reference to `B` the class `A` has failed as `B` has. -/
theorem loaded_a : (Registry.after paths requests').loaded[(Loader.boot, "A")]? =
    some (.error (.classCircularity "B")) := by
  have hrun := loadClass_boot_of_circle hasFile_b hasFile_a rfl rfl rfl rfl (by decide)
    (holds_object.missing "B" (by decide)) (holds_object.missing "A" (by decide))
  have hsame := ((coherent_after paths transparent_requests).recalls.resolve .classes 0 6).2.loaded
  rw [(Linker.leads_of_error ((lookUp_b (holds_object.class? 0)).trans hrun)).1] at hsame
  have hloaded : (Registry.after paths requests').loaded[(Loader.boot, "A")]? = _ :=
    congrArg (fun l : Std.HashMap Key (Except Fault ClassId) => l[(Loader.boot, "A")]?) hsame
  rw [hloaded, Registry.loaded_remember, if_neg (by decide), Registry.loaded_remember, if_pos rfl]

/-- Resolved first, the reference to `A` names `A`. -/
theorem outcome_first : (Kind.classes.resolve paths 0 4).outcome (Registry.after paths requests) =
    .error (.classCircularity "A") := by
  have hrun := loadClass_boot_of_circle hasFile_a hasFile_b rfl rfl rfl rfl (by decide)
    (holds_object.missing "A" (by decide)) (holds_object.missing "B" (by decide))
  rw [((coherent_after paths transparent_requests).recalls.resolve .classes 0 4).1]
  exact (Linker.leads_of_error ((lookUp_a (holds_object.class? 0)).trans hrun)).2

/-- Resolved after the reference to `B`, it names `B`. -/
theorem outcome_second : (Kind.classes.resolve paths 0 4).outcome (Registry.after paths requests') =
    .error (.classCircularity "B") := by
  rw [((coherent_after paths transparent_requests').recalls.resolve .classes 0 4).1]
  exact (Linker.leads_of_error ((lookUp_a class?_object).trans (load_of_knows (.core loaded_a)))).2

end Ring

/-- **The order of requests can be seen**: the failure of both classes names the one that was requested
first. -/
theorem not_resolvesTransparently : ¬ Ring.paths.ResolvesTransparently (· = ·) := by
  intro h
  have halike := h.anyOrder Ring.requests Ring.requests' Ring.transparent_requests Ring.transparent_requests'
    0 0 _ _ (Ring.holds_object.class? 0) Ring.class?_object rfl .classes 4
  rw [Ring.outcome_first, Ring.outcome_second] at halike
  cases halike with
  | error heq => exact absurd heq (by decide)

end Jvm.Linking
