import Mathlib
import Jvm.Proofs.Heap.Placement

/-! # What a collection keeps

A collection keeps exactly the objects that can be reached from the roots (`Reachable`). Marking is followed
through its work list: whatever is marked can be reached, and what a marked object refers to is marked or
still in the list. `Collected` says what a collection does to every object and how it counts them;
`collected_after` is the main statement. -/

namespace Jvm.Heap

variable {κ : Type}

/-- Whether an object can be reached from some references, through references that name objects. -/
inductive Reachable (h : Heap κ) (roots : List Ref) : Ref → Prop
  | root {r : Ref} (hroot : r ∈ roots) (hlive : h.IsLive r) : h.Reachable roots r
  | step {r s : Ref} {o : Object κ} (hr : h.Reachable roots r) (ho : h.object? r = some o)
    (hs : s ∈ o.contents.references) (hlive : h.IsLive s) : h.Reachable roots s

theorem Reachable.isLive {h : Heap κ} {roots : List Ref} {r : Ref} (hr : h.Reachable roots r) :
    h.IsLive r := by
  cases hr <;> assumption

theorem Reachable.mono {h : Heap κ} {roots roots' : List Ref} {r : Ref} (hr : h.Reachable roots r)
    (hsub : ∀ s ∈ roots, h.IsLive s → h.Reachable roots' s) : h.Reachable roots' r := by
  induction hr with
  | root hroot hlive => exact hsub _ hroot hlive
  | step _ ho hs hlive ih => exact ih.step ho hs hlive

/-- Whether a reference names an object with a mark. -/
def IsMarked (h : Heap κ) (r : Ref) : Prop := ∃ o, h.object? r = some o ∧ o.marked = true

/-- Whether no object has a mark, as it is between operations. -/
def Clean (h : Heap κ) : Prop := ∀ r o, h.object? r = some o → o.marked = false

theorem Clean.not_isMarked {h : Heap κ} (hclean : h.Clean) (r : Ref) : ¬ h.IsMarked r := by
  rintro ⟨o, ho, hmarked⟩
  rw [hclean r o ho] at hmarked
  cases hmarked

/-! ### Heaps that differ in marks -/

/-- Whether a heap is another one with more marks. -/
structure Marks (h h' : Heap κ) : Prop where
  rest : h' = { h with slots := h'.slots }
  object : ∀ r, (h'.object? r).map Object.mark = (h.object? r).map Object.mark
  marked : ∀ r, h.IsMarked r → h'.IsMarked r

theorem Marks.refl (h : Heap κ) : h.Marks h := ⟨rfl, fun _ => rfl, fun _ => id⟩

theorem Marks.trans {h₁ h₂ h₃ : Heap κ} (h₁₂ : h₁.Marks h₂) (h₂₃ : h₂.Marks h₃) : h₁.Marks h₃ where
  rest := by
    rw [h₂₃.rest, h₁₂.rest]
  object r := (h₂₃.object r).trans (h₁₂.object r)
  marked r := h₂₃.marked r ∘ h₁₂.marked r

theorem marks_mark (h : Heap κ) (r : Ref) : h.Marks (h.mark r) where
  rest := rfl
  object s := by
    rw [mark, object?_modifyObject]
    split_ifs
    · rw [Option.map_map]
      rfl
    · rfl
  marked s := by
    rintro ⟨o, ho, hmarked⟩
    rw [IsMarked, mark, object?_modifyObject, ho]
    split_ifs
    exacts [⟨o.mark, rfl, rfl⟩, ⟨o, rfl, hmarked⟩]

section

variable {h h' : Heap κ} (hmarks : h.Marks h')

include hmarks

theorem Marks.object_eq {r : Ref} {o' : Object κ} (ho' : h'.object? r = some o') :
    ∃ o, h.object? r = some o ∧ o' = { o with marked := o'.marked } := by
  have hr := hmarks.object r
  rw [ho', Option.map_some] at hr
  obtain ⟨o, ho, hmark⟩ := Option.map_eq_some_iff.mp hr.symm
  refine ⟨o, ho, ?_⟩
  obtain ⟨_, _, _, _, _, _, _, _⟩ := o
  obtain ⟨_, _, _, _, _, _, _, _⟩ := o'
  simpa [Object.mark] using hmark.symm

theorem Marks.object_of_eq {r : Ref} {o : Object κ} (ho : h.object? r = some o) :
    ∃ marked, h'.object? r = some { o with marked } := by
  have hr := hmarks.object r
  rw [ho, Option.map_some] at hr
  obtain ⟨o', ho', -⟩ := Option.map_eq_some_iff.mp hr
  obtain ⟨o₁, ho₁, heq⟩ := hmarks.object_eq ho'
  obtain rfl := Option.some.inj (ho.symm.trans ho₁)
  exact ⟨o'.marked, heq ▸ ho'⟩

theorem Marks.isLive_iff {r : Ref} : h'.IsLive r ↔ h.IsLive r := by
  constructor
  · rintro ⟨o', ho'⟩
    obtain ⟨o, ho, -⟩ := hmarks.object_eq ho'
    exact ⟨o, ho⟩
  · rintro ⟨o, ho⟩
    obtain ⟨marked, ho'⟩ := hmarks.object_of_eq ho
    exact ⟨_, ho'⟩

theorem Marks.reachable {roots : List Ref} {r : Ref} (hr : h'.Reachable roots r) :
    h.Reachable roots r := by
  induction hr with
  | root hroot hlive => exact .root hroot (hmarks.isLive_iff.mp hlive)
  | step _ ho hs hlive ih =>
    obtain ⟨o, ho', heq⟩ := hmarks.object_eq ho
    rw [heq] at hs
    exact ih.step ho' hs (hmarks.isLive_iff.mp hlive)

end

/-! ### Marking -/

/-- Whether what a marked object refers to is marked or in the work list. -/
def ClosedUpTo (h : Heap κ) (pending : List Ref) : Prop :=
  ∀ r o, h.object? r = some o → o.marked = true → ∀ s ∈ o.contents.references, h.IsLive s →
    h.IsMarked s ∨ s ∈ pending

/-- The number of objects with a mark. -/
def markedCount (h : Heap κ) : Nat := (h.objectsWhere (·.marked)).length

theorem markedCount_mark {h : Heap κ} {r : Ref} {o : Object κ} (ho : h.object? r = some o)
    (hunmarked : o.marked = false) : (h.mark r).markedCount = h.markedCount + 1 := by
  have := total_modifyObject (fun o => if o.marked then 1 else 0) Object.mark ho
  rw [markedCount, markedCount, length_objectsWhere, length_objectsWhere, mark]
  simpa [hunmarked, Object.mark] using this

theorem ClosedUpTo.mark {h : Heap κ} {r : Ref} {o : Object κ} {pending : List Ref}
    (hclosed : h.ClosedUpTo (r :: pending)) (ho : h.object? r = some o) :
    (h.mark r).ClosedUpTo (o.contents.references ++ pending) := by
  have hmarks := marks_mark h r
  have hmarked : (h.mark r).IsMarked r :=
    ⟨o.mark, by rw [Heap.mark, object?_modifyObject, if_pos rfl, ho]; rfl, rfl⟩
  intro s p hp hpmarked t ht hlive
  by_cases hsr : s = r
  · subst hsr
    obtain ⟨o', ho', heq⟩ := hmarks.object_eq hp
    obtain rfl := Option.some.inj (ho.symm.trans ho')
    rw [heq] at ht
    exact .inr (List.mem_append_left _ ht)
  · rw [Heap.mark, object?_modifyObject, if_neg hsr] at hp
    rcases hclosed s p hp hpmarked t ht (hmarks.isLive_iff.mp hlive) with h | h
    · exact .inl (hmarks.marked t h)
    · rcases List.mem_cons.mp h with rfl | h
      · exact .inl hmarked
      · exact .inr (List.mem_append_right _ h)

/-- What marking from a work list comes to. -/
structure MarkedFrom (h : Heap κ) (found : Nat) (pending : List Ref) (result : Nat × Heap κ) :
    Prop where
  marks : h.Marks result.2
  sound : ∀ r, result.2.IsMarked r → h.IsMarked r ∨ h.Reachable pending r
  roots : ∀ r ∈ pending, h.IsLive r → result.2.IsMarked r
  closed : h.ClosedUpTo pending → result.2.ClosedUpTo []
  count : result.1 + h.markedCount = found + result.2.markedCount

theorem MarkedFrom.skip {h : Heap κ} {found : Nat} {r : Ref} {pending : List Ref}
    {result : Nat × Heap κ} (hrest : h.MarkedFrom found pending result)
    (hr : h.IsLive r → h.IsMarked r) : h.MarkedFrom found (r :: pending) result where
  marks := hrest.marks
  sound s hs := (hrest.sound s hs).imp_right fun hreach =>
    hreach.mono fun _ hmem hlive => .root (List.mem_cons_of_mem _ hmem) hlive
  roots s hs hlive := by
    rcases List.mem_cons.mp hs with rfl | hs
    · exact hrest.marks.marked s (hr hlive)
    · exact hrest.roots s hs hlive
  closed hclosed := hrest.closed fun s o ho hmarked t ht hlive => by
    rcases hclosed s o ho hmarked t ht hlive with h | h
    · exact .inl h
    · rcases List.mem_cons.mp h with rfl | h
      exacts [.inl (hr hlive), .inr h]
  count := hrest.count

theorem MarkedFrom.visit {h : Heap κ} {found : Nat} {r : Ref} {o : Object κ} {pending : List Ref}
    {result : Nat × Heap κ} (ho : h.object? r = some o) (hunmarked : o.marked = false)
    (hrest : (h.mark r).MarkedFrom (found + 1) (o.contents.references ++ pending) result) :
    h.MarkedFrom found (r :: pending) result := by
  have hmarks := marks_mark h r
  have hroot : h.Reachable (r :: pending) r := .root List.mem_cons_self ⟨o, ho⟩
  constructor
  · exact hmarks.trans hrest.marks
  · intro s hs
    rcases hrest.sound s hs with hmarked | hreach
    · obtain ⟨p, hp, hpmarked⟩ := hmarked
      by_cases hsr : s = r
      · exact .inr (hsr ▸ hroot)
      · rw [mark, object?_modifyObject, if_neg hsr] at hp
        exact .inl ⟨p, hp, hpmarked⟩
    · refine .inr ((hmarks.reachable hreach).mono fun t ht hlive => ?_)
      rcases List.mem_append.mp ht with ht | ht
      · exact hroot.step ho ht hlive
      · exact .root (List.mem_cons_of_mem _ ht) hlive
  · intro s hs hlive
    rcases List.mem_cons.mp hs with rfl | hs
    · refine hrest.marks.marked s ⟨o.mark, ?_, rfl⟩
      rw [mark, object?_modifyObject, if_pos rfl, ho]
      rfl
    · exact hrest.roots s (List.mem_append_right _ hs) (hmarks.isLive_iff.mpr hlive)
  · exact fun hclosed => hrest.closed (hclosed.mark ho)
  · have := hrest.count
    rw [markedCount_mark ho hunmarked] at this
    omega

/-- **Marking** follows the work list to its end. -/
theorem markedFrom_markFrom (h : Heap κ) (found : Nat) (pending : List Ref) :
    h.MarkedFrom found pending (h.markFrom found pending) := by
  induction h, found, pending using markFrom.induct with
  | case1 h found =>
    rw [markFrom]
    exact ⟨.refl h, fun _ => .inl, by simp, id, rfl⟩
  | case2 h found r pending hdead ih =>
    rw [markFrom]
    split
    · exact ih.skip fun hlive => absurd hlive (not_isLive_iff.mpr hdead)
    · next o ho => rw [hdead] at ho; cases ho
  | case3 h found r pending o ho hmarked ih =>
    rw [markFrom]
    split
    · next hdead => rw [ho] at hdead; cases hdead
    · next o' ho' =>
      obtain rfl := Option.some.inj (ho.symm.trans ho')
      rw [dif_pos hmarked]
      exact ih.skip fun _ => ⟨o, ho, hmarked⟩
  | case4 h found r pending o ho hunmarked ih =>
    rw [markFrom]
    split
    · next hdead => rw [ho] at hdead; cases hdead
    · next o' ho' =>
      obtain rfl := Option.some.inj (ho.symm.trans ho')
      rw [dif_neg hunmarked]
      exact .visit ho (by simpa using hunmarked) ih

/-- Marking a heap without marks marks what can be reached. -/
theorem isMarked_markFrom {h : Heap κ} (hclean : h.Clean) (roots : List Ref) (r : Ref) :
    (h.markFrom 0 roots).2.IsMarked r ↔ h.Reachable roots r := by
  have hresult := markedFrom_markFrom h 0 roots
  have hclosed := hresult.closed fun s o ho hmarked =>
    absurd ⟨o, ho, hmarked⟩ (hclean.not_isMarked s)
  constructor
  · intro hr
    exact (hresult.sound r hr).resolve_left (hclean.not_isMarked r)
  · intro hr
    induction hr with
    | root hroot hlive => exact hresult.roots _ hroot hlive
    | step _ ho hs hlive ih =>
      obtain ⟨o', ho', hmarked⟩ := ih
      obtain ⟨o, ho₁, heq⟩ := hresult.marks.object_eq ho'
      obtain rfl := Option.some.inj (ho.symm.trans ho₁)
      refine (hclosed _ o' ho' hmarked _ ?_ (hresult.marks.isLive_iff.mpr hlive)).resolve_right
        List.not_mem_nil
      rw [heq]
      exact hs

/-! ### Sweeping -/

theorem object?_removeUnmarked (h : Heap κ) (r : Ref) :
    h.removeUnmarked.object? r = ((h.object? r).filter (·.marked)).map Object.aged := by
  simp only [object?, removeUnmarked, Array.getElem?_map]
  rcases h.slots[r.index]? with _ | slot <;> rfl

theorem slots_settleBlock (state : Nat × Heap κ) (i : Nat) :
    (settleBlock state i).2.slots = state.2.slots := by
  unfold settleBlock
  dsimp only
  split
  · rfl
  · split_ifs <;> rfl

theorem slots_settleBlocks (h : Heap κ) : h.settleBlocks.2.slots = h.slots := by
  have hfold : ∀ (indices : List Nat) (state : Nat × Heap κ),
      (indices.foldl settleBlock state).2.slots = state.2.slots := by
    intro indices
    induction indices with
    | nil => exact fun _ => rfl
    | cons i indices ih => exact fun state => (ih _).trans (slots_settleBlock state i)
  exact hfold _ (0, h)

theorem object?_collect (h : Heap κ) (roots : List Ref) (r : Ref) :
    (h.collect roots).2.object? r =
      (((h.markFrom 0 roots).2.object? r).filter (·.marked)).map Object.aged := by
  rw [← object?_removeUnmarked]
  exact object?_congr (slots_settleBlocks _) r

/-! ### Counting -/

/-- The references to objects that pass a test. -/
def refsWhere (h : Heap κ) (p : Object κ → Bool) : Finset Ref :=
  ((h.objectsWhere p).map fun entry => ⟨entry.1⟩).toFinset

theorem nodup_refs (h : Heap κ) (p : Object κ → Bool) :
    ((h.objectsWhere p).map fun entry => (⟨entry.1⟩ : Ref)).Nodup := by
  have := (nodup_objectsWhere h p).map (f := Ref.mk) fun _ _ h => Ref.mk.inj h
  rwa [List.map_map] at this

theorem mem_refsWhere {h : Heap κ} {p : Object κ → Bool} {r : Ref} :
    r ∈ h.refsWhere p ↔ ∃ o, h.object? r = some o ∧ p o = true := by
  simp only [refsWhere, List.mem_toFinset, List.mem_map, Prod.exists, mem_objectsWhere]
  constructor
  · rintro ⟨i, o, ho, rfl⟩
    exact ⟨o, ho⟩
  · rintro ⟨o, ho⟩
    exact ⟨r.index, o, ho, rfl⟩

theorem card_refsWhere (h : Heap κ) (p : Object κ → Bool) :
    (h.refsWhere p).card = (h.objectsWhere p).length := by
  rw [refsWhere, List.toFinset_card_of_nodup (nodup_refs h p), List.length_map]

/-- The bytes of the object that a reference names. -/
def sizeOf (h : Heap κ) (r : Ref) : Nat := (h.object? r).elim 0 Object.size

theorem sum_sizeOf_refsWhere (h : Heap κ) (p : Object κ → Bool) :
    ∑ r ∈ h.refsWhere p, h.sizeOf r = totalSize (h.objectsWhere p) := by
  rw [refsWhere, List.sum_toFinset _ (nodup_refs h p), List.map_map, totalSize_eq_sum]
  refine congrArg List.sum (List.map_congr_left fun entry hentry => ?_)
  rw [Function.comp_apply, sizeOf, (mem_objectsWhere.mp hentry).1]
  rfl

/-! ### Collections -/

/-- What a collection comes to. -/
structure Collected (h : Heap κ) (roots : List Ref) (summary : Summary) (h' : Heap κ) : Prop where
  live : ∀ r, h'.IsLive r ↔ h.IsLive r ∧ h.Reachable roots r
  kept : ∀ r o, h.Reachable roots r → h.object? r = some o →
    h'.object? r = some { o with age := min (o.age + 1) 255, marked := false }
  marked : ∃ refs : Finset Ref, (∀ r, r ∈ refs ↔ h.Reachable roots r) ∧ summary.marked = refs.card
  reclaimed : ∃ refs : Finset Ref, (∀ r, r ∈ refs ↔ h.IsLive r ∧ ¬ h.Reachable roots r) ∧
    summary.reclaimed = refs.card ∧ summary.bytes = ∑ r ∈ refs, h.sizeOf r

theorem collected_of_clean {h : Heap κ} (hclean : h.Clean) (roots : List Ref) :
    h.Collected roots (h.collect roots).1 (h.collect roots).2 := by
  have hresult := markedFrom_markFrom h 0 roots
  have hmarks := hresult.marks
  have hiff := isMarked_markFrom hclean roots
  set m := (h.markFrom 0 roots).2 with hm
  have hunmarked (r : Ref) :
      (∃ o, m.object? r = some o ∧ (!o.marked) = true) ↔ h.IsLive r ∧ ¬ h.Reachable roots r := by
    rw [← hiff, ← hmarks.isLive_iff]
    constructor
    · rintro ⟨o, ho, hnot⟩
      refine ⟨⟨o, ho⟩, ?_⟩
      rintro ⟨o', ho', hmarked⟩
      obtain rfl := Option.some.inj (ho.symm.trans ho')
      rw [hmarked] at hnot
      cases hnot
    · rintro ⟨⟨o, ho⟩, hnot⟩
      refine ⟨o, ho, ?_⟩
      cases hmarked : o.marked
      · rfl
      · exact absurd ⟨o, ho, hmarked⟩ hnot
  have hkept (r : Ref) (o : Object κ) (hr : h.Reachable roots r) (ho : h.object? r = some o) :
      (h.collect roots).2.object? r = some { o with age := min (o.age + 1) 255, marked := false } := by
    obtain ⟨o', ho', hmarked⟩ := (hiff r).mpr hr
    obtain ⟨o₁, ho₁, heq⟩ := hmarks.object_eq ho'
    obtain rfl := Option.some.inj (ho.symm.trans ho₁)
    rw [object?_collect, ← hm, ho', Option.filter_some, if_pos hmarked, heq]
    rfl
  refine ⟨fun r => ⟨?_, ?_⟩, hkept, ?_, ?_⟩
  · rintro ⟨o, ho⟩
    rw [object?_collect, ← hm] at ho
    obtain ⟨o', ho', -⟩ := Option.map_eq_some_iff.mp ho
    have hr := (hiff r).mp ⟨o', (Option.filter_eq_some_iff.mp ho')⟩
    exact ⟨hr.isLive, hr⟩
  · rintro ⟨⟨o, ho⟩, hr⟩
    exact ⟨_, hkept r o hr ho⟩
  · refine ⟨m.refsWhere (·.marked), fun r => mem_refsWhere.trans (hiff r), ?_⟩
    have hzero : h.markedCount = 0 := by
      rw [markedCount, List.length_eq_zero_iff, List.eq_nil_iff_forall_not_mem]
      rintro ⟨i, o⟩ hmem
      obtain ⟨ho, hmarked⟩ := mem_objectsWhere.mp hmem
      exact hclean.not_isMarked ⟨i⟩ ⟨o, ho, hmarked⟩
    have hcount := hresult.count
    rw [hzero, Nat.add_zero, Nat.zero_add] at hcount
    rw [card_refsWhere]
    exact hcount
  · refine ⟨m.refsWhere (!·.marked), fun r => mem_refsWhere.trans (hunmarked r), ?_, ?_⟩
    · rw [card_refsWhere]
      rfl
    · calc (h.collect roots).1.bytes = totalSize (m.objectsWhere (!·.marked)) := rfl
        _ = ∑ r ∈ m.refsWhere (!·.marked), m.sizeOf r := (sum_sizeOf_refsWhere m _).symm
        _ = ∑ r ∈ m.refsWhere (!·.marked), h.sizeOf r := Finset.sum_congr rfl fun r hr => by
          obtain ⟨o', ho', -⟩ := mem_refsWhere.mp hr
          obtain ⟨o, ho, heq⟩ := hmarks.object_eq ho'
          rw [sizeOf, sizeOf, ho', ho, Option.elim_some, Option.elim_some, heq]

/-! ### Between operations nothing is marked -/

theorem clean_kept : Kept (Clean : Heap κ → Prop) where
  empty config r o ho := by simp at ho
  modify := by
    intro h r f hclean hf s o ho
    rw [object?_modifyObject] at ho
    split_ifs at ho
    · obtain ⟨o', ho', rfl⟩ := Option.map_eq_some_iff.mp ho
      rw [(hf o').2.2]
      exact hclean s o' ho'
    · exact hclean s o ho
  create := by
    intro h h' request r hclean htry s o ho
    obtain ⟨block, h₁, hreserve, -, rfl⟩ := tryAllocate_eq_some htry
    rcases object?_place ho with ho | ⟨-, rfl⟩
    · exact hclean s o (object?_congr (slots_reserve hreserve) s ▸ ho)
    · rfl
  grow := by
    intro h h' size hclean hgrow
    obtain ⟨-, rfl⟩ := eq_of_grow hgrow
    exact hclean
  collect := by
    intro h roots _ r o ho
    rw [object?_collect] at ho
    obtain ⟨o', -, rfl⟩ := Option.map_eq_some_iff.mp ho
    rfl

/-- **A collection keeps exactly what can be reached**, on every heap that operations lead to and from
any roots. -/
theorem collected_after (config : Config) (operations : List (Operation κ)) (roots : List Ref) :
    (after config operations).Collected roots ((after config operations).collect roots).1
      ((after config operations).collect roots).2 :=
  collected_of_clean (clean_kept.after config operations) roots

end Jvm.Heap
