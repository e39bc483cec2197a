import Mathlib
import Jvm.Proofs.Linking.Building
import Jvm.Proofs.Linking.Renumbering

/-! # What a name means

The class paths alone say what class a loader defines under a name, with no registry and no stack: `answer`
looks for it down to some depth of the classes that it depends on. Where names depend on themselves no depth is
enough. Classes are numbered by their loader and name there. -/

namespace Jvm.Linking

open ClassFile Assembly

/-! ## Numbers by name -/

/-- A number for each loader and name. -/
def codeOf (key : Key) : Nat := Encodable.encode (key.1 == .boot, key.2.toList.map Char.toNat)

theorem codeOf_injective : Function.Injective codeOf := by
  rintro ⟨l, n⟩ ⟨l', n'⟩ h
  obtain ⟨hl, hn⟩ := Prod.mk.inj (Encodable.encode_injective h)
  have hl : l = l' := by
    cases l <;> cases l' <;> first | rfl | cases hl
  have hchars : Function.Injective Char.toNat := fun a b h => Char.toNat_inj.1 h
  have hn : n = n' := String.toList_inj.1 (List.map_injective_iff.2 hchars hn)
  rw [hl, hn]

/-- The number of the class of a loader and name, which is not one of a class that is yet to come. -/
def canonicalId (key : Key) : Nat := 2 * codeOf key + 1

theorem canonicalId_injective : Function.Injective canonicalId := fun a b h =>
  codeOf_injective (by unfold canonicalId at h; omega)

theorem canonicalId_ne (key : Key) (n : Nat) : canonicalId key ≠ 2 * n := by
  unfold canonicalId
  omega

/-- The loader and the name of a class. -/
def LinkedClass.key (c : LinkedClass) : Key := (c.loader, c.name)

/-! ## Answers -/

/-- A computation that finds a value, fails, or does not look deep enough. -/
abbrev Glimpse := ExceptT Fault Option

namespace Glimpse

/-- The result of a pure step. -/
def ofExcept {α : Type} (x : Except Fault α) : Glimpse α := ExceptT.mk (some x)

/-- What is not looked at. -/
def unseen {α : Type} : Glimpse α := ExceptT.mk none

end Glimpse

section

variable (paths : ClassPaths) (ask : Key → Glimpse LinkedClass)

/-- The class that a loader comes to for a name, with what the loaders define. -/
def requested (loader : Loader) (name : String) : Glimpse LinkedClass :=
  match loader with
  | .boot => ask (.boot, name)
  | .app =>
    tryCatch (ask (.boot, name)) fun e =>
      match e with
      | .classNotFound _ => ask (.app, name)
      | e => throw e

variable (load : String → Glimpse LinkedClass)

/-- The superclass that a class file names. -/
def superclassOf (name : String) (c : ClassFile) : Glimpse (Option LinkedClass) := do
  match ← Glimpse.ofExcept c.superName with
  | some superName =>
    let s ← load superName
    Glimpse.ofExcept (checkSuperclass name superName c.access.isInterface s)
    return some s
  | none =>
    if name = objectName then return none
    throw (.classFormat ("class " ++ name ++ " has no super class"))

/-- A superinterface that a class file names. -/
def interfaceOf (name interfaceName : String) : Glimpse LinkedClass := do
  let i ← load interfaceName
  if !i.isInterface then
    throw (.incompatibleClassChange ("class " ++ name ++ " can not implement " ++ interfaceName
      ++ ", because it is not an interface"))
  return i

/-- A class with its number. -/
def numberedByName (c : LinkedClass) : ClassId × LinkedClass := (canonicalId c.key, c)

/-- The class of a class file that was found under a name. -/
def classOfFile (loader : Loader) (expected : String) (c : ClassFile) : Glimpse LinkedClass := do
  let name ← Glimpse.ofExcept c.name
  if name != expected then
    throw (.classNotFound (expected ++ " (wrong name: " ++ name ++ ")"))
  let superclass ← superclassOf load name c
  let interfaceNames ← Glimpse.ofExcept c.interfaceNames
  let interfaces ← interfaceNames.mapM (interfaceOf load name)
  let (linked, _) ← Glimpse.ofExcept (linkedClass (canonicalId (loader, name)) loader name c
    (superclass.map numberedByName) (interfaces.map numberedByName))
  return linked

/-- The array class of a name with elements of a component type. -/
def arrayClassBy (loader : Loader) (name : String) (component : Component) : Glimpse LinkedClass := do
  let object ← load objectName
  let cloneable ← load CoreClasses.cloneableName
  let serializable ← load CoreClasses.serializableName
  return arrayClass loader name component (canonicalId object.key) (canonicalId cloneable.key)
    (canonicalId serializable.key) object.methodTable

/-- The array class that a loader defines under a name. -/
def arrayOfName (loader : Loader) (name : String) : Glimpse LinkedClass := do
  let component : Component ⊕ LinkedClass ← match elementName? name with
    | none => throw (.classNotFound name)
    | some (.primitive type) =>
      match loader with
      | .boot => pure (.inl (.primitive type))
      | .app => .inr <$> requested ask .boot name
    | some (.reference element) => do
      let component ← requested ask loader element
      match loader, component.loader with
      | .app, .boot => .inr <$> requested ask .boot name
      | _, _ => pure (.inl (.reference (canonicalId component.key)))
  match component with
  | .inr c => return c
  | .inl component => arrayClassBy (requested ask .boot) loader name component

/-- The class of the class file that a loader finds under a name. -/
def fileOfName (loader : Loader) (name : String) : Glimpse LinkedClass :=
  match (paths.ofLoader loader).find name with
  | .error text => throw (.classNotFound (name ++ " (" ++ text ++ ")"))
  | .ok none => throw (.classNotFound name)
  | .ok (some bytes) => do
    let c ← Glimpse.ofExcept (ClassFile.parse bytes)
    classOfFile (requested ask loader) loader name c

/-- The class that a loader defines under a name, with what the loaders define otherwise. -/
def defined (key : Key) : Glimpse LinkedClass :=
  if isArrayName key.2 then arrayOfName ask key.1 key.2 else fileOfName paths ask key.1 key.2

end

/-- The class that a loader defines under a name, as far as it is seen at some depth. -/
def answer (paths : ClassPaths) : Nat → Key → Glimpse LinkedClass
  | 0, _ => Glimpse.unseen
  | n + 1, key => defined paths (answer paths n) key

/-- What the class paths give for a request. -/
abbrev ClassPaths.given (paths : ClassPaths) (key : Key) (n : Nat) : Glimpse LinkedClass :=
  requested (answer paths n) key.1 key.2

/-! ## Meanings -/

section

variable {α β : Type}

/-- What a computation comes to at every depth at which it comes to anything. -/
structure Yields (p : Nat → Glimpse α) (v : Except Fault α) : Prop where
  seen : ∃ n, ∀ m ≥ n, (p m).run = some v
  only : ∀ n, (p n).run = none ∨ (p n).run = some v

variable {p : Nat → Glimpse α} {q : α → Nat → Glimpse β} {v w : Except Fault α} {a : α} {e : Fault}

theorem Yields.eq_of_seen (hv : Yields p v) {n : Nat} (h : (p n).run = some w) : w = v := by
  rcases hv.only n with hnone | hsome
  · cases hnone.symm.trans h
  · exact Option.some.inj (h.symm.trans hsome)

theorem Yields.unique (hv : Yields p v) (hw : Yields p w) : v = w := by
  obtain ⟨n, hn⟩ := hv.seen
  exact hw.eq_of_seen (hn n le_rfl)

theorem yields_const {x : Glimpse α} (h : x.run = some v) : Yields (fun _ => x) v :=
  ⟨⟨0, fun _ _ => h⟩, fun _ => .inr h⟩

theorem run_bind_of_ok {x : Glimpse α} {g : α → Glimpse β} (h : x.run = some (.ok a)) :
    (x >>= g).run = (g a).run := by
  rw [ExceptT.run_bind, h]
  rfl

theorem run_bind_of_error {x : Glimpse α} {g : α → Glimpse β} (h : x.run = some (.error e)) :
    (x >>= g).run = some (.error e) := by
  rw [ExceptT.run_bind, h]
  rfl

theorem run_bind_of_none {x : Glimpse α} {g : α → Glimpse β} (h : x.run = none) :
    (x >>= g).run = none := by
  rw [ExceptT.run_bind, h]
  rfl

theorem Yields.bind (hp : Yields p (.ok a)) {w : Except Fault β} (hq : Yields (q a) w) :
    Yields (fun n => p n >>= (q · n)) w := by
  obtain ⟨n, hn⟩ := hp.seen
  obtain ⟨m, hm⟩ := hq.seen
  refine ⟨⟨max n m, fun k hk => ?_⟩, fun k => ?_⟩
  · exact (run_bind_of_ok (hn k ((le_max_left ..).trans hk))).trans (hm k ((le_max_right ..).trans hk))
  · rcases hp.only k with h | h
    · exact .inl (run_bind_of_none h)
    · rw [run_bind_of_ok h]
      exact hq.only k

theorem Yields.bind_error (hp : Yields p (.error e)) : Yields (fun n => p n >>= (q · n)) (.error e) := by
  obtain ⟨n, hn⟩ := hp.seen
  refine ⟨⟨n, fun k hk => run_bind_of_error (hn k hk)⟩, fun k => ?_⟩
  rcases hp.only k with h | h
  · exact .inl (run_bind_of_none h)
  · exact .inr (run_bind_of_error h)

end

end Jvm.Linking
