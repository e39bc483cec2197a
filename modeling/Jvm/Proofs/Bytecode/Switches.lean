import Jvm.Proofs.Bytecode.Encoding

/-! # Where switches lead

Halving finds the pair of a key wherever the keys of the pairs increase (`seek_eq`). So a table leads each key
to the position that it has for it, and every other key to its default; two tables that have the same positions
for the same keys lead every key to the same place, whatever way they are laid out. -/

namespace Jvm.Bytecode.SwitchTable

variable {pairs : Array (Int32 × Nat)} {key : Int32} {p : Nat} {t t' : SwitchTable}

/-- Whether a table has a position for a key. The keys of a range are counted up from the lowest one without
coming around, so that it may have positions for numbers that are no keys. -/
def Maps (t : SwitchTable) (key : Int) (p : Nat) : Prop :=
  match t.cases with
  | .range low targets => ∃ i : Nat, targets[i]? = some p ∧ low.toInt + i = key
  | .pairs pairs => ∃ k, (k, p) ∈ pairs ∧ k.toInt = key

/-! ### Halving -/

/-- Where the keys increase, a pair before another one has the smaller key. -/
theorem lt_of_pairwise (hsorted : pairs.toList.Pairwise fun a b => a.1 < b.1) {i j : Nat} {a b : Int32 × Nat}
    (hi : pairs[i]? = some a) (hj : pairs[j]? = some b) (hij : i < j) : a.1 < b.1 := by
  obtain ⟨hi', rfl⟩ := Array.getElem?_eq_some_iff.mp hi
  obtain ⟨hj', rfl⟩ := Array.getElem?_eq_some_iff.mp hj
  exact List.pairwise_iff_getElem.mp hsorted i j hi' hj' hij

/-- **Halving comes to the pair of the key** if this pair is among those that it starts from. -/
theorem seek_eq (hsorted : pairs.toList.Pairwise fun a b => a.1 < b.1) {i base size : Nat}
    (hkey : pairs[i]? = some (key, p)) (hbase : base ≤ i) (hi : i < base + size)
    (hsize : base + size ≤ pairs.size) : seek pairs key base size = i := by
  fun_induction seek pairs key base size with
  | case1 base size hlt middle above ih =>
    have hmiddle : middle = base + size / 2 := rfl
    obtain ⟨⟨k, q⟩, hk⟩ : ∃ pair, pairs[middle]? = some pair :=
      ⟨_, Array.getElem?_eq_getElem (by omega)⟩
    have habove : above = decide (key < k) := by
      unfold above
      rw [hk]
    -- the pair of the key is in the half that is kept
    by_cases hkeylt : key < k
    · have hbefore : i < middle := by
        by_contra hle
        rcases Nat.eq_or_lt_of_le (Nat.not_lt.mp hle) with rfl | hlt'
        · cases hk.symm.trans hkey
          exact Int32.lt_irrefl hkeylt
        · exact Int32.lt_asymm hkeylt (lt_of_pairwise hsorted hk hkey hlt')
      simp only [habove, hkeylt, decide_true, ↓reduceDIte, ↓reduceIte] at ih ⊢
      exact ih hbase (by omega) (by omega)
    · have hbehind : middle ≤ i := by
        by_contra hlt'
        exact hkeylt (lt_of_pairwise hsorted hkey hk (Nat.not_le.mp hlt'))
      simp only [habove, hkeylt, decide_false, Bool.false_eq_true, ↓reduceDIte, ↓reduceIte] at ih ⊢
      exact ih hbehind (by omega) (by omega)
  | case2 base size hone => omega

theorem lookup_eq_some (hsorted : pairs.toList.Pairwise fun a b => a.1 < b.1) (h : (key, p) ∈ pairs) :
    lookup pairs key = some p := by
  obtain ⟨i, hi⟩ := Array.mem_iff_getElem?.mp h
  obtain ⟨hlt, -⟩ := Array.getElem?_eq_some_iff.mp hi
  have hseek : seek pairs key 0 pairs.size = i := seek_eq hsorted hi (Nat.zero_le i) (by omega) (by omega)
  rw [lookup, hseek, hi]
  exact if_pos rfl

/-- What is found is a pair of the key, whether or not the keys increase. -/
theorem mem_of_lookup_eq_some (h : lookup pairs key = some p) : (key, p) ∈ pairs := by
  unfold lookup at h
  split at h
  · next k q hget =>
    split at h
    · next heq =>
      cases h
      exact heq ▸ Array.mem_of_getElem? hget
    · cases h
  · cases h

/-! ### Tables -/

/-- The position for a key in a run of keys. -/
theorem target_range (default : Nat) (low : Int32) (targets : List Nat) (key : Int32) :
    target ⟨default, .range low targets⟩ key =
      if h : low.toInt ≤ key.toInt ∧ key.toInt < low.toInt + targets.length then
        targets[(key.toInt - low.toInt).toNat]
      else default := by
  unfold target
  dsimp only
  split
  · next hbelow => rw [dif_neg (by omega)]
  · next hfrom =>
    split
    · next hwithin => rw [List.getElem?_eq_getElem (by omega), Option.getD_some]
    · next hbehind => rw [List.getElem?_eq_none (by omega), Option.getD_none]

/-- **A key goes to the position that the table has for it.** -/
theorem target_of_maps (hsorted : t.Sorted) (h : t.Maps key.toInt p) : t.target key = p := by
  obtain ⟨default, cases⟩ := t
  cases cases with
  | range low targets =>
    obtain ⟨i, hi, hkey⟩ := h
    obtain ⟨hlt, rfl⟩ := List.getElem?_eq_some_iff.mp hi
    have hindex : (key.toInt - low.toInt).toNat = i := by omega
    rw [target_range, dif_pos (by omega)]
    simp only [hindex]
  | pairs pairs =>
    obtain ⟨k, hk, hkey⟩ := h
    obtain rfl : k = key := Int32.toInt_inj.mp hkey
    change (lookup pairs k).getD default = p
    rw [lookup_eq_some hsorted hk, Option.getD_some]

/-- **A key without a position goes to the default.** -/
theorem target_of_unmapped (h : ∀ p, ¬ t.Maps key.toInt p) : t.target key = t.default := by
  obtain ⟨default, cases⟩ := t
  cases cases with
  | range low targets =>
    rw [target_range, dif_neg]
    rintro ⟨hle, hlt⟩
    have hindex : (key.toInt - low.toInt).toNat < targets.length := by omega
    exact h _ ⟨_, List.getElem?_eq_getElem hindex, by omega⟩
  | pairs pairs =>
    change (lookup pairs key).getD default = default
    cases hfound : lookup pairs key with
    | none => rfl
    | some p => exact (h p ⟨key, mem_of_lookup_eq_some hfound, rfl⟩).elim

/-- Two tables that say the same of every key lead it to the same place. -/
theorem target_eq_target (hsorted : t.Sorted) (hsorted' : t'.Sorted) (hdefault : t.default = t'.default)
    (hmaps : ∀ p, t.Maps key.toInt p ↔ t'.Maps key.toInt p) : t.target key = t'.target key := by
  by_cases h : ∃ p, t.Maps key.toInt p
  · obtain ⟨p, hp⟩ := h
    rw [target_of_maps hsorted hp, target_of_maps hsorted' ((hmaps p).mp hp)]
  · have hnone : ∀ p, ¬ t.Maps key.toInt p := not_exists.mp h
    rw [target_of_unmapped hnone, target_of_unmapped fun p hp => hnone p ((hmaps p).mpr hp), hdefault]

theorem target_mem (t : SwitchTable) (key : Int32) : t.target key ∈ t.allTargets := by
  obtain ⟨default, cases⟩ := t
  cases cases with
  | range low targets =>
    rw [target_range]
    split
    · exact List.mem_cons_of_mem _ (List.getElem_mem _)
    · exact List.mem_cons_self
  | pairs pairs =>
    change (lookup pairs key).getD default ∈ _
    cases hfound : lookup pairs key with
    | none => exact List.mem_cons_self
    | some p =>
      exact List.mem_cons_of_mem _ (List.mem_map.mpr
        ⟨(key, p), Array.mem_toList_iff.mpr (mem_of_lookup_eq_some hfound), rfl⟩)

/-- **A switch looks keys up.** In a run of keys a key goes to the position at its distance from the lowest one,
among pairs to the position it is paired with, and to the default if there is none; a run and pairs that map
the same keys alike lead every key to the same place; and nowhere else than to a position of the table. -/
theorem looksUp :
    (∀ (default : Nat) (low : Int32) (targets : List Nat) (key : Int32),
      target ⟨default, .range low targets⟩ key =
        if h : low.toInt ≤ key.toInt ∧ key.toInt < low.toInt + targets.length then
          targets[(key.toInt - low.toInt).toNat]
        else default) ∧
    (∀ (default : Nat) (pairs : Array (Int32 × Nat)) (key : Int32),
      (pairs.toList.Pairwise fun a b => a.1 < b.1) →
        (∀ p, (key, p) ∈ pairs → target ⟨default, .pairs pairs⟩ key = p) ∧
          ((∀ p, (key, p) ∉ pairs) → target ⟨default, .pairs pairs⟩ key = default)) ∧
    (∀ (default : Nat) (low : Int32) (targets : List Nat) (pairs : Array (Int32 × Nat)),
      (pairs.toList.Pairwise fun a b => a.1 < b.1) →
        (∀ (key : Int32) (p : Nat), Maps ⟨default, .range low targets⟩ key.toInt p ↔ (key, p) ∈ pairs) →
          ∀ key, target ⟨default, .range low targets⟩ key = target ⟨default, .pairs pairs⟩ key) ∧
    ∀ (t : SwitchTable) (key : Int32), t.target key ∈ t.allTargets := by
  have hmaps (default : Nat) (pairs : Array (Int32 × Nat)) (key : Int32) (p : Nat) :
      Maps ⟨default, .pairs pairs⟩ key.toInt p ↔ (key, p) ∈ pairs := by
    constructor
    · rintro ⟨k, hk, hkey⟩
      exact Int32.toInt_inj.mp hkey ▸ hk
    · exact fun h => ⟨key, h, rfl⟩
  refine ⟨target_range, fun default pairs key hsorted => ⟨fun p h => ?_, fun h => ?_⟩,
    fun default low targets pairs hsorted h key => ?_, target_mem⟩
  · exact target_of_maps (t := ⟨default, .pairs pairs⟩) hsorted ((hmaps default pairs key p).mpr h)
  · exact target_of_unmapped (t := ⟨default, .pairs pairs⟩) fun p hp => h p ((hmaps default pairs key p).mp hp)
  · have hrange : Sorted ⟨default, .range low targets⟩ := trivial
    have hpairs : Sorted ⟨default, .pairs pairs⟩ := hsorted
    exact target_eq_target hrange hpairs rfl fun p => (h key p).trans (hmaps default pairs key p).symm

/-- A run that goes on beyond the greatest key, and its two keys as pairs. -/
theorem looksUp_atEnd :
    (#[((2147483646 : Int32), 4), (2147483647, 5)].toList.Pairwise fun a b => a.1 < b.1) ∧
      (∀ (key : Int32) (p : Nat), Maps ⟨9, .range 2147483646 [4, 5, 6]⟩ key.toInt p ↔
        (key, p) ∈ #[((2147483646 : Int32), 4), (2147483647, 5)]) ∧
      target ⟨9, .pairs #[(2147483646, 4), (2147483647, 5)]⟩ 2147483647 = 5 ∧
      target ⟨9, .pairs #[(2147483646, 4), (2147483647, 5)]⟩ (-2147483648) = 9 ∧
      ∀ key, target ⟨9, .range 2147483646 [4, 5, 6]⟩ key =
        target ⟨9, .pairs #[(2147483646, 4), (2147483647, 5)]⟩ key := by
  have hsorted : #[((2147483646 : Int32), 4), (2147483647, 5)].toList.Pairwise fun a b => a.1 < b.1 := by
    decide
  have hmaps (key : Int32) (p : Nat) : Maps ⟨9, .range 2147483646 [4, 5, 6]⟩ key.toInt p ↔
      (key, p) ∈ #[((2147483646 : Int32), 4), (2147483647, 5)] := by
    simp only [List.mem_toArray, List.mem_cons, Prod.mk.injEq, List.not_mem_nil, or_false]
    constructor
    · rintro ⟨i, hi, hkey⟩
      match i with
      | 0 => exact .inl ⟨Int32.toInt_inj.mp hkey.symm, (Option.some.inj hi).symm⟩
      | 1 => exact .inr ⟨Int32.toInt_inj.mp hkey.symm, (Option.some.inj hi).symm⟩
      | 2 => exact absurd (hkey ▸ key.toInt_lt) (by decide)
      | i + 3 => cases hi
    · rintro (⟨rfl, rfl⟩ | ⟨rfl, rfl⟩)
      · exact ⟨0, rfl, rfl⟩
      · exact ⟨1, rfl, rfl⟩
  obtain ⟨-, hpairs, hsame, -⟩ := looksUp
  exact ⟨hsorted, hmaps, (hpairs 9 _ _ hsorted).1 5 (by simp), (hpairs 9 _ _ hsorted).2 (by simp),
    hsame 9 2147483646 [4, 5, 6] _ hsorted hmaps⟩

end Jvm.Bytecode.SwitchTable
