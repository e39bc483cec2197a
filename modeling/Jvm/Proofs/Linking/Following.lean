import Mathlib
import Jvm.Proofs.Linking.Faithful

/-! # Loading follows the meanings of names

`Linker.Follows` compares a part of loading with the part of a meaning that it works out: it comes to the same
class, or fails in the same way; or it fails since a class that is being loaded is requested again, and then
the meaning is not seen either. What makes this go through is that the meanings of all classes on the stack
wait for the one that is being worked out (`Pending`). -/

namespace Jvm.Linking

open ClassFile Assembly

variable {α β γ δ : Type} {paths : ClassPaths} {stack : List Key} {r r' r₁ r₂ : Registry} {key : Key}

/-! ## Waiting for a meaning -/

/-- Whether the classes of a stack are seen only where a computation is seen that they wait for. -/
def Pending (paths : ClassPaths) (stack : List Key) (p : Nat → Glimpse α) : Prop :=
  ∀ y ∈ stack, ∀ n, (answer paths (n + 1) y).run.isSome → ∃ m ≤ n, (p m).run.isSome

/-- Whether a computation is seen only where a class of a stack is seen. -/
def Hopeless (paths : ClassPaths) (stack : List Key) (p : Nat → Glimpse α) : Prop :=
  ∀ n, (p n).run.isSome → ∃ y ∈ stack, ∃ m ≤ n, (answer paths m y).run.isSome

/-- Whether a failure is that of a computation, or comes from a class of a stack that it goes back to. -/
def Fails (paths : ClassPaths) (stack : List Key) (p : Nat → Glimpse α) (e : Fault) : Prop :=
  Yields p (.error e) ∨ (∃ name, e = .classCircularity name) ∧ Hopeless paths stack p

section

variable {p : Nat → Glimpse α} {q : α → Nat → Glimpse β} {a : α} {e : Fault}

theorem isSome_of_bind {x : Glimpse α} {g : α → Glimpse β} (h : (x >>= g).run.isSome) : x.run.isSome := by
  cases hx : x.run with
  | none => rw [run_bind_of_none hx] at h; exact h
  | some _ => rfl

/-- Where no class is being loaded, none waits. -/
theorem pending_nil (p : Nat → Glimpse α) : Pending paths [] p := fun y hy => by cases hy

theorem Hopeless.run_eq_none (h : Hopeless paths [] p) (n : Nat) : (p n).run = none := by
  by_contra hne
  obtain ⟨y, hy, -⟩ := h n (Option.isSome_iff_ne_none.2 hne)
  cases hy

theorem Pending.of_bind (h : Pending paths stack fun n => p n >>= (q · n)) : Pending paths stack p := by
  intro y hy n hn
  obtain ⟨m, hm, hseen⟩ := h y hy n hn
  exact ⟨m, hm, isSome_of_bind hseen⟩

theorem Pending.rest (h : Pending paths stack fun n => p n >>= (q · n)) (hp : Yields p (.ok a)) :
    Pending paths stack (q a) := by
  intro y hy n hn
  obtain ⟨m, hm, hseen⟩ := h y hy n hn
  refine ⟨m, hm, ?_⟩
  rcases hp.only m with hnone | hok
  · rw [run_bind_of_none hnone] at hseen
    cases hseen
  · rwa [run_bind_of_ok hok] at hseen

theorem Fails.bind (h : Fails paths stack p e) : Fails paths stack (fun n => p n >>= (q · n)) e := by
  rcases h with h | ⟨hcircular, hhopeless⟩
  · exact .inl h.bind_error
  · exact .inr ⟨hcircular, fun n hn => hhopeless n (isSome_of_bind hn)⟩

theorem Fails.rest (hp : Yields p (.ok a)) (h : Fails paths stack (q a) e) :
    Fails paths stack (fun n => p n >>= (q · n)) e := by
  rcases h with h | ⟨hcircular, hhopeless⟩
  · exact .inl (hp.bind h)
  · refine .inr ⟨hcircular, fun n hn => hhopeless n ?_⟩
    rcases hp.only n with hnone | hok
    · rw [run_bind_of_none hnone] at hn
      cases hn
    · rwa [run_bind_of_ok hok] at hn

end

/-! ## Following -/

/-- How a faithful registry changes while the classes of a stack are being loaded. -/
structure Registry.Proceeds (paths : ClassPaths) (stack : List Key) (r r' : Registry) : Prop where
  table : r.table.Within r'.table
  faithful : r'.Faithful paths
  untouched : ∀ key ∈ stack, r'.loaded[key]? = r.loaded[key]?

theorem Registry.Proceeds.refl (hr : r.Faithful paths) : r.Proceeds paths stack r :=
  ⟨.refl _, hr, fun _ _ => rfl⟩

theorem Registry.Proceeds.trans (h₁ : r.Proceeds paths stack r₁) (h₂ : r₁.Proceeds paths stack r₂) :
    r.Proceeds paths stack r₂ :=
  ⟨h₁.table.trans h₂.table, h₂.faithful, fun key hkey =>
    (h₂.untouched key hkey).trans (h₁.untouched key hkey)⟩

namespace Linker

/-- Whether a part of loading follows a computation. -/
def Follows (paths : ClassPaths) (stack : List Key) (p : Nat → Glimpse β)
    (R : β → α → Registry → Prop) (x : Linker α) (r : Registry) : Prop :=
  match x r with
  | .ok a r' => r.Proceeds paths stack r' ∧ ∃ v, Yields p (.ok v) ∧ R v a r'
  | .error e r' => r.Proceeds paths stack r' ∧ Fails paths stack p e

variable {p : Nat → Glimpse β} {R : β → α → Registry → Prop} {x : Linker α} {q : β → Nat → Glimpse δ}
  {S : δ → γ → Registry → Prop} {g : α → Linker γ}

theorem follows_of_ok {a : α} {v : β} (h : x r = .ok a r') (hproceeds : r.Proceeds paths stack r')
    (hp : Yields p (.ok v)) (hR : R v a r') : Follows paths stack p R x r := by
  unfold Follows; rw [h]; exact ⟨hproceeds, v, hp, hR⟩

theorem follows_of_error {e : Fault} (h : x r = .error e r') (hproceeds : r.Proceeds paths stack r')
    (hp : Fails paths stack p e) : Follows paths stack p R x r := by
  unfold Follows; rw [h]; exact ⟨hproceeds, hp⟩

theorem Follows.of_eq_ok (hx : Follows paths stack p R x r) {a : α} (h : x r = .ok a r') :
    r.Proceeds paths stack r' ∧ ∃ v, Yields p (.ok v) ∧ R v a r' := by
  unfold Follows at hx; rwa [h] at hx

theorem Follows.of_eq_error (hx : Follows paths stack p R x r) {e : Fault} (h : x r = .error e r') :
    r.Proceeds paths stack r' ∧ Fails paths stack p e := by
  unfold Follows at hx; rwa [h] at hx

theorem Follows.mono {R' : β → α → Registry → Prop} (hx : Follows paths stack p R x r)
    (himp : ∀ v a r', r.Proceeds paths stack r' → R v a r' → R' v a r') : Follows paths stack p R' x r := by
  rcases h : x r with ⟨a, r'⟩ | ⟨e, r'⟩
  · obtain ⟨hproceeds, v, hv, hR⟩ := hx.of_eq_ok h
    exact follows_of_ok h hproceeds hv (himp v a r' hproceeds hR)
  · obtain ⟨hproceeds, hfails⟩ := hx.of_eq_error h
    exact follows_of_error h hproceeds hfails

theorem Follows.of_eq {y : Linker α} (hy : Follows paths stack p R y r) (h : x r = y r) :
    Follows paths stack p R x r := by
  unfold Follows at hy ⊢
  rwa [h]

theorem follows_pure (hr : r.Faithful paths) {v : β} {a : α} (hR : R v a r) :
    Follows paths stack (fun _ => pure v) R (pure a) r :=
  follows_of_ok rfl (.refl hr) (yields_const rfl) hR

theorem follows_throw (hr : r.Faithful paths) (e : Fault) :
    Follows paths stack (fun _ => throw e) R (throw e) r :=
  follows_of_error rfl (.refl hr) (.inl (yields_const rfl))

theorem follows_ofExcept (hr : r.Faithful paths) (o : Except Fault α) :
    Follows paths stack (fun _ => Glimpse.ofExcept o) (fun v a r' => v = a ∧ r' = r ∧ o = .ok a)
      (ofExcept o) r := by
  cases o with
  | ok a => exact follows_of_ok rfl (.refl hr) (yields_const rfl) ⟨rfl, rfl, rfl⟩
  | error e => exact follows_of_error rfl (.refl hr) (.inl (yields_const rfl))

theorem Follows.bind (hpending : Pending paths stack fun n => p n >>= (q · n))
    (hx : Pending paths stack p → Follows paths stack p R x r)
    (hg : ∀ v a r', r.Proceeds paths stack r' → R v a r' → Pending paths stack (q v) →
      Follows paths stack (q v) S (g a) r') :
    Follows paths stack (fun n => p n >>= (q · n)) S (x >>= g) r := by
  have hx := hx hpending.of_bind
  rcases h : x r with ⟨a, r₁⟩ | ⟨e, r₁⟩
  · obtain ⟨hproceeds, v, hv, hR⟩ := hx.of_eq_ok h
    have hga := hg v a r₁ hproceeds hR (hpending.rest hv)
    rcases h' : g a r₁ with ⟨b, r₂⟩ | ⟨e, r₂⟩
    · obtain ⟨hproceeds', w, hw, hS⟩ := hga.of_eq_ok h'
      exact follows_of_ok ((bind_of_ok h).trans h') (hproceeds.trans hproceeds') (hv.bind hw) hS
    · obtain ⟨hproceeds', hfails⟩ := hga.of_eq_error h'
      exact follows_of_error ((bind_of_ok h).trans h') (hproceeds.trans hproceeds') (hfails.rest hv)
  · obtain ⟨hproceeds, hfails⟩ := hx.of_eq_error h
    exact follows_of_error (bind_of_error h) hproceeds hfails.bind

/-- Reading the registry is not seen in the computation. -/
theorem follows_reading {p : Nat → Glimpse δ} {a : α} (h : x r = .ok a r)
    (hg : Follows paths stack p S (g a) r) : Follows paths stack p S (x >>= g) r :=
  hg.of_eq (bind_of_ok h)

theorem follows_ite {c : Prop} [Decidable c] {p p' : Nat → Glimpse β} {y : Linker α}
    (hpending : Pending paths stack fun n => if c then p n else p' n)
    (hx : c → Pending paths stack p → Follows paths stack p R x r)
    (hy : ¬ c → Pending paths stack p' → Follows paths stack p' R y r) :
    Follows paths stack (fun n => if c then p n else p' n) R (if c then x else y) r := by
  by_cases h : c
  · simp only [if_pos h] at hpending ⊢
    exact hx h hpending
  · simp only [if_neg h] at hpending ⊢
    exact hy h hpending

section

variable {h : Fault → Linker α} {h' : Fault → Nat → Glimpse β} {v : β} {e : Fault}

theorem run_tryCatch_of_none {y : Glimpse β} {k : Fault → Glimpse β} (hy : y.run = none) :
    (tryCatch y k).run = none := by
  change (y.run >>= _) = none
  rw [hy]
  rfl

theorem run_tryCatch_of_ok {y : Glimpse β} {k : Fault → Glimpse β} (hy : y.run = some (.ok v)) :
    (tryCatch y k).run = some (.ok v) := by
  change (y.run >>= _) = _
  rw [hy]
  rfl

theorem run_tryCatch_of_error {y : Glimpse β} {k : Fault → Glimpse β} (hy : y.run = some (.error e)) :
    (tryCatch y k).run = (k e).run := by
  change (y.run >>= _) = _
  rw [hy]
  rfl

theorem yields_tryCatch_of_ok (hp : Yields p (.ok v)) :
    Yields (fun n => tryCatch (p n) (h' · n)) (.ok v) := by
  obtain ⟨n, hn⟩ := hp.seen
  refine ⟨⟨n, fun m hm => run_tryCatch_of_ok (hn m hm)⟩, fun m => ?_⟩
  exact (hp.only m).imp run_tryCatch_of_none run_tryCatch_of_ok

theorem yields_tryCatch_of_error (hp : Yields p (.error e)) {w : Except Fault β} (hh : Yields (h' e) w) :
    Yields (fun n => tryCatch (p n) (h' · n)) w := by
  obtain ⟨n, hn⟩ := hp.seen
  obtain ⟨m, hm⟩ := hh.seen
  refine ⟨⟨max n m, fun k hk => ?_⟩, fun k => ?_⟩
  · exact (run_tryCatch_of_error (hn k ((le_max_left ..).trans hk))).trans
      (hm k ((le_max_right ..).trans hk))
  · rcases hp.only k with hnone | herror
    · exact .inl (run_tryCatch_of_none hnone)
    · rw [run_tryCatch_of_error herror]
      exact hh.only k

theorem isSome_of_tryCatch {y : Glimpse β} {k : Fault → Glimpse β} (hy : (tryCatch y k).run.isSome) :
    y.run.isSome := by
  cases hrun : y.run with
  | none => rw [run_tryCatch_of_none hrun] at hy; exact hy
  | some _ => rfl

/-- A failure that is circularity is not caught. -/
theorem Follows.tryCatch (hpending : Pending paths stack fun n => tryCatch (p n) (h' · n))
    (hx : Pending paths stack p → Follows paths stack p R x r)
    (hcircular : ∀ name r', h (.classCircularity name) r' = .error (.classCircularity name) r')
    (hh : ∀ e r', x r = .error e r' → r.Proceeds paths stack r' → Pending paths stack (h' e) →
      Follows paths stack (h' e) R (h e) r') :
    Follows paths stack (fun n => tryCatch (p n) (h' · n)) R (tryCatch x h) r := by
  have hx := hx fun y hy n hn => by
    obtain ⟨m, hm, hseen⟩ := hpending y hy n hn
    exact ⟨m, hm, isSome_of_tryCatch hseen⟩
  rcases hrun : x r with ⟨a, r₁⟩ | ⟨e, r₁⟩
  · obtain ⟨hproceeds, v, hv, hR⟩ := hx.of_eq_ok hrun
    exact follows_of_ok (tryCatch_of_ok hrun) hproceeds (yields_tryCatch_of_ok hv) hR
  · obtain ⟨hproceeds, hfails⟩ := hx.of_eq_error hrun
    rcases hfails with herror | ⟨⟨name, rfl⟩, hhopeless⟩
    · -- the handler goes on where the computation goes on
      have hwaits : Pending paths stack (h' e) := fun y hy n hn => by
        obtain ⟨m, hm, hseen⟩ := hpending y hy n hn
        refine ⟨m, hm, ?_⟩
        rcases herror.only m with hnone | hsome
        · rw [run_tryCatch_of_none hnone] at hseen
          cases hseen
        · rwa [run_tryCatch_of_error hsome] at hseen
      have hhe := hh e r₁ hrun hproceeds hwaits
      rcases hrun' : h e r₁ with ⟨a, r₂⟩ | ⟨e', r₂⟩
      · obtain ⟨hproceeds', w, hw, hR⟩ := hhe.of_eq_ok hrun'
        exact follows_of_ok ((tryCatch_of_error hrun).trans hrun') (hproceeds.trans hproceeds')
          (yields_tryCatch_of_error herror hw) hR
      · obtain ⟨hproceeds', hfails⟩ := hhe.of_eq_error hrun'
        refine follows_of_error ((tryCatch_of_error hrun).trans hrun') (hproceeds.trans hproceeds') ?_
        rcases hfails with hw | ⟨hname, hhopeless⟩
        · exact .inl (yields_tryCatch_of_error herror hw)
        · refine .inr ⟨hname, fun n hn => hhopeless n ?_⟩
          rcases herror.only n with hnone | hsome
          · rw [run_tryCatch_of_none hnone] at hn
            cases hn
          · rwa [run_tryCatch_of_error hsome] at hn
    · exact follows_of_error ((tryCatch_of_error hrun).trans (hcircular name r₁)) hproceeds
        (.inr ⟨⟨name, rfl⟩, fun n hn => hhopeless n (isSome_of_tryCatch hn)⟩)

end

/-- A part of loading for each entry of a list, between well-formed registries. -/
theorem follows_mapM {f : γ → Linker α} {fp : γ → Nat → Glimpse β} {P : β → α → Registry → Prop}
    (hP : ∀ v a r r', r.WellFormed → r.Proceeds paths stack r' → P v a r → P v a r') :
    ∀ (cs : List γ) {r : Registry}, r.WellFormed → r.Faithful paths →
      Pending paths stack (fun n => cs.mapM (fp · n)) →
      (∀ c ∈ cs, ∀ r, r.WellFormed → r.Faithful paths → Pending paths stack (fp c) →
        Follows paths stack (fp c) (fun v a r' => r'.WellFormed ∧ P v a r') (f c) r) →
      Follows paths stack (fun n => cs.mapM (fp · n))
        (fun vs as r' => r'.WellFormed ∧ List.Forall₂ (P · · r') vs as) (cs.mapM f) r
  | [], r, hr, hfaithful, _, _ => by
    simp only [List.mapM_nil]
    exact follows_pure hfaithful ⟨hr, .nil⟩
  | c :: cs, r, hr, hfaithful, hpending, hf => by
    simp only [List.mapM_cons] at hpending ⊢
    refine Follows.bind hpending (hf c List.mem_cons_self r hr hfaithful) ?_
    rintro v a r₁ h₁ ⟨hr₁, hv⟩ hpending
    refine Follows.bind hpending (fun hpending => follows_mapM hP cs hr₁ h₁.faithful hpending
      fun c' hc' => hf c' (List.mem_cons_of_mem _ hc')) ?_
    rintro vs as r₂ h₂ ⟨hr₂, hvs⟩ -
    exact follows_pure h₂.faithful ⟨hr₂, .cons (hP v a r₁ r₂ hr₁ h₂ hv) hvs⟩

end Linker

end Jvm.Linking
