import Mathlib

/-!
# Ordered maps

`BTreeMap` is an ordered finite map with extensional equality: two maps with
the same lookups are the same map.  Keys carry a lawful order, and tuples and
records of keys are ordered lexicographically.  The lemmas below state the
lookup after each operation with plain equality of keys, and how the greatest
key moves.
-/

namespace Tansu.Lib

open Std List Option ExtTreeMap

abbrev BTreeMap (K V : Type) [Ord K] := ExtTreeMap K V compare

/-- Tuples of keys are ordered component by component. -/
instance instOrdProd {α β : Type} [Ord α] [Ord β] : Ord (α × β) := lexOrd

/-- An order pulled back along an injection is lawful. -/
theorem lawfulEqCmp_compareOn {α β : Type} [Ord β] [LawfulEqOrd β] (f : α → β)
    (hf : Function.Injective f) : LawfulEqCmp (compareOn f : α → α → Ordering) where
  compare_self := by simp [compareOn]
  eq_of_compare h := hf (by simpa [compareOn] using h)

namespace BTreeMap

variable {K V : Type} [Ord K] [TransOrd K] {m : BTreeMap K V} {k k' : K} {v : V} {f : V → V}
  {P : K → V → Prop}

theorem mem_iff_exists : k ∈ m ↔ ∃ v, m[k]? = some v := by
  rw [mem_iff_isSome_getElem?, isSome_iff_exists]

/-- `last_key_value`: the greatest key. -/
def lastKey? (m : BTreeMap K V) : Option K := m.keys.getLast?

theorem lastKey?_eq_maxKey? : lastKey? m = m.maxKey? := maxKey?_eq_getLast?_keys.symm

theorem lastKey?_insert : lastKey? (m.insert k v) =
    some ((lastKey? m).elim k fun k' => if (compare k' k).isLE then k else k') := by
  simp only [lastKey?_eq_maxKey?, maxKey?_insert]

variable [LawfulEqOrd K]

/-! ## The greatest key -/

theorem lastKey?_modify : lastKey? (m.modify k f) = lastKey? m := by
  simp only [lastKey?_eq_maxKey?, maxKey?_modify_eq_maxKey?]

theorem mem_of_lastKey? (h : lastKey? m = some k) : k ∈ m :=
  (maxKey?_eq_some_iff_mem_and_forall.1 (lastKey?_eq_maxKey?.symm.trans h)).1

theorem isLE_of_lastKey? (h : lastKey? m = some k) (hk : k' ∈ m) : (compare k' k).isLE :=
  (maxKey?_eq_some_iff_mem_and_forall.1 (lastKey?_eq_maxKey?.symm.trans h)).2 k' hk

/-! ## Lookups -/

variable [DecidableEq K]

theorem getElem?_insert_eq : (m.insert k v)[k']? = if k = k' then some v else m[k']? := by
  simp [ExtTreeMap.getElem?_insert]

theorem getElem?_erase_eq : (m.erase k)[k']? = if k = k' then none else m[k']? := by
  simp [getElem?_erase]

theorem getElem?_modify_eq : (m.modify k f)[k']? = if k = k' then m[k']?.map f else m[k']? := by
  simp only [ExtTreeMap.getElem?_modify, Std.compare_eq_iff_eq]
  split
  · next h => rw [h]
  · rfl

theorem getElem?_alter_eq {f : Option V → Option V} :
    (m.alter k f)[k']? = if k = k' then f m[k']? else m[k']? := by
  simp only [getElem?_alter, Std.compare_eq_iff_eq]
  split
  · next h => rw [h]
  · rfl

theorem alter_some {f : Option V → V} :
    m.alter k (fun o => some (f o)) = m.insert k (f m[k]?) := by
  refine ExtTreeMap.ext_getElem? fun k' => ?_
  rw [getElem?_alter_eq, getElem?_insert_eq]
  split
  · next h => rw [h]
  · rfl

/-- `entry(k).or_insert(v)`: an entry that is there stays as it is. -/
theorem getElem?_insertIfNew_eq :
    (m.insertIfNew k v)[k']? = if k = k' then some (m[k']?.getD v) else m[k']? := by
  rw [getElem?_insertIfNew]
  by_cases hk : k = k'
  · subst hk
    cases h : m[k]? with
    | none =>
      have hmem : k ∉ m := fun hc => by
        rw [mem_iff_isSome_getElem?, h] at hc; simp at hc
      simp [hmem]
    | some w =>
      have hmem : k ∈ m := by rw [mem_iff_isSome_getElem?, h]; rfl
      simp [hmem]
  · simp [hk]

omit [DecidableEq K] in
theorem getElem?_filter_eq_some {f : K → V → Bool} :
    (m.filter f)[k]? = some v ↔ m[k]? = some v ∧ f k v = true := by
  rw [getElem?_filter', filter_eq_some_iff]

omit [DecidableEq K] in
theorem getElem?_filter_key {p : K → Bool} :
    (m.filter fun k _ => p k)[k]? = if p k then m[k]? else none := by
  rw [getElem?_filter']
  cases m[k]? <;> simp [Option.filter]

/-! ## Folds -/

variable {α : Type} {l : List α} {key : α → K} {val : α → V}

/-- Every update of an entry is one of those made under its key. -/
theorem getElem?_foldl_alter {f : α → Option V → Option V} (l : List α) (m : BTreeMap K V) :
    (l.foldl (fun m x => m.alter (key x) (f x)) m)[k]? =
      (l.filter (key · = k)).foldl (fun o x => f x o) m[k]? := by
  induction l generalizing m with
  | nil => rfl
  | cons x l ih =>
    rw [foldl_cons, ih, getElem?_alter_eq]
    by_cases hx : key x = k
    · simp [hx]
    · simp [hx]

theorem getElem?_foldl_insert (l : List α) (m : BTreeMap K V) :
    (l.foldl (fun m x => m.insert (key x) (val x)) m)[k]? =
      (((l.filter (key · = k)).getLast?).map val).or m[k]? := by
  induction l generalizing m with
  | nil => simp
  | cons x l ih =>
    rw [foldl_cons, ih, getElem?_insert_eq]
    by_cases hx : key x = k
    · cases hl : (l.filter (key · = k)).getLast? with
      | none => simp [getLast?_eq_none_iff.1 hl, hx]
      | some y => simp [hx, getLast?_cons, hl]
    · simp [hx]

theorem getElem?_foldl_insert_of_mem (x : α) (hx : x ∈ l)
    (hl : ∀ y ∈ l, key y = key x → val y = val x) :
    (l.foldl (fun m x => m.insert (key x) (val x)) m)[key x]? = some (val x) := by
  rw [getElem?_foldl_insert]
  cases hlast : (l.filter (key · = key x)).getLast? with
  | none =>
    have := getLast?_eq_none_iff.1 hlast
    simp only [filter_eq_nil_iff, decide_eq_true_eq] at this
    exact absurd rfl (this x hx)
  | some y =>
    obtain ⟨hy, hk⟩ := List.mem_filter.1 (mem_of_getLast? hlast)
    simp [hl y hy (of_decide_eq_true hk)]

/-- What holds of the entries that are there and of those inserted holds of all. -/
theorem forall_foldl_insert (hm : ∀ k v, m[k]? = some v → P k v) (hl : ∀ x ∈ l, P (key x) (val x)) :
    ∀ k v, (l.foldl (fun m x => m.insert (key x) (val x)) m)[k]? = some v → P k v := by
  induction l generalizing m with
  | nil => exact hm
  | cons x l ih =>
    refine ih (fun k v h => ?_) fun y hy => hl y (mem_cons_of_mem _ hy)
    rw [getElem?_insert_eq] at h
    split at h
    · next hk =>
      subst hk
      cases h
      exact hl x mem_cons_self
    · exact hm k v h

theorem forall_foldl_insertIfNew (hm : ∀ k v, m[k]? = some v → P k v)
    (hl : ∀ x ∈ l, P (key x) (val x)) :
    ∀ k v, (l.foldl (fun m x => m.insertIfNew (key x) (val x)) m)[k]? = some v → P k v := by
  induction l generalizing m with
  | nil => exact hm
  | cons x l ih =>
    refine ih (fun k v h => ?_) fun y hy => hl y (mem_cons_of_mem _ hy)
    rw [getElem?_insertIfNew_eq] at h
    split at h
    · next hk =>
      subst hk
      cases hv : m[key x]? with
      | none =>
        rw [hv] at h
        cases h
        exact hl x mem_cons_self
      | some v' =>
        rw [hv] at h
        cases h
        exact hm _ _ hv
    · exact hm k v h

/-- Entries that are there survive `or_insert`. -/
theorem getElem?_foldl_insertIfNew (l : List α) (h : m[k]? = some v) :
    (l.foldl (fun m x => m.insertIfNew (key x) (val x)) m)[k]? = some v := by
  induction l generalizing m with
  | nil => exact h
  | cons x l ih =>
    refine ih ?_
    rw [getElem?_insertIfNew_eq, h]
    split <;> rfl

theorem isSome_foldl_insertIfNew {x : α} (hx : x ∈ l) (m : BTreeMap K V) :
    (l.foldl (fun m x => m.insertIfNew (key x) (val x)) m)[key x]?.isSome := by
  induction l generalizing m with
  | nil => cases hx
  | cons y l ih =>
    rcases mem_cons.1 hx with rfl | hx
    · have hnew : (m.insertIfNew (key x) (val x))[key x]? =
          some (m[key x]?.getD (val x)) := by
        rw [getElem?_insertIfNew_eq, if_pos rfl]
      rw [foldl_cons, getElem?_foldl_insertIfNew l hnew]
      rfl
    · exact ih hx _

/-! ## Values -/

section Values

variable {K V : Type} [Ord K] [TransOrd K] {m : BTreeMap K V}

theorem values_eq_map_toList : m.values = m.toList.map Prod.snd := by
  obtain ⟨⟨q⟩⟩ := m
  induction q using Quotient.ind with
  | _ a =>
    have hvalues : DTreeMap.Internal.Impl.values a.inner = a.inner.toListModel.map (·.2) := by
      rw [DTreeMap.Internal.Impl.values, DTreeMap.Internal.Impl.foldr_eq_foldr]
      exact foldr_cons_eq_append.trans (append_nil _)
    have htoList : DTreeMap.Internal.Impl.Const.toList a.inner =
        a.inner.toListModel.map fun e => (e.1, e.2) :=
      DTreeMap.Internal.Impl.Const.toList_eq_toListModel_map
    change DTreeMap.Internal.Impl.values a.inner =
      (DTreeMap.Internal.Impl.Const.toList a.inner).map Prod.snd
    rw [hvalues, htoList, List.map_map]
    rfl

theorem mem_values [LawfulEqOrd K] {v : V} : v ∈ m.values ↔ ∃ k : K, m[k]? = some v := by
  rw [values_eq_map_toList, List.mem_map]
  constructor
  · rintro ⟨⟨k, v⟩, hmem, rfl⟩
    exact ⟨k, mem_toList_iff_getElem?_eq_some.1 hmem⟩
  · rintro ⟨k, hk⟩
    exact ⟨(k, v), mem_toList_iff_getElem?_eq_some.2 hk, rfl⟩

end Values

/-! ## Sums -/

/-- The sum of a weight over the entries. -/
def sumOf (f : V → Nat) (m : BTreeMap K V) : Nat := (m.toList.map fun entry => f entry.2).sum

variable {f : V → Nat} {v : V} {m m' : BTreeMap K V} {k : K}

omit [DecidableEq K] in
theorem nodup_toList : m.toList.Nodup :=
  distinct_keys_toList.imp fun hne heq => hne (by rw [heq, compare_self])

theorem filter_toList : m.toList.filter (·.1 = k) = (m[k]?.map fun v => (k, v)).toList := by
  cases hk : m[k]? with
  | none =>
    refine filter_eq_nil_iff.2 ?_
    rintro ⟨k', v⟩ hmem heq
    obtain rfl : k' = k := by simpa using heq
    rw [mem_toList_iff_getElem?_eq_some, hk] at hmem
    cases hmem
  | some v =>
    refine perm_singleton.1 ((perm_ext_iff_of_nodup (nodup_toList.filter _)
      (nodup_singleton _)).2 ?_)
    rintro ⟨k', v'⟩
    rw [List.mem_filter, mem_toList_iff_getElem?_eq_some, mem_singleton]
    constructor
    · rintro ⟨hmem, heq⟩
      obtain rfl : k' = k := by simpa using heq
      rw [hk] at hmem
      cases hmem
      rfl
    · rintro ⟨⟩
      exact ⟨hk, by simp⟩

omit [DecidableEq K] in
/-- The entries that meet `p`, in the order of their keys. -/
theorem eq_filter_toList {p : K × V → Bool} {l : List (K × V)}
    (hsorted : l.Pairwise fun a b => compare a.1 b.1 = .lt)
    (hmem : ∀ e, e ∈ l ↔ m[e.1]? = some e.2 ∧ p e = true) : l = m.toList.filter p := by
  have hnodup : l.Nodup := hsorted.imp fun hlt heq => by
    rw [heq, compare_self] at hlt
    cases hlt
  refine List.Perm.eq_of_pairwise (fun a b _ _ hab hba => ?_) hsorted
    (ordered_keys_toList.filter _)
    ((perm_ext_iff_of_nodup hnodup (nodup_toList.filter _)).2 fun e => ?_)
  · have hgt : compare a.1 b.1 = (compare b.1 a.1).swap := OrientedCmp.eq_swap
    rw [hab, hba] at hgt
    cases hgt
  · rw [hmem e, List.mem_filter, mem_toList_iff_getElem?_eq_some]

theorem perm_toList_erase (h : m[k]? = some v) : m.toList.Perm ((k, v) :: (m.erase k).toList) := by
  have hnot : (k, v) ∉ (m.erase k).toList := by
    rw [mem_toList_iff_getElem?_eq_some, getElem?_erase_eq]
    simp
  rw [perm_ext_iff_of_nodup nodup_toList (nodup_cons.2 ⟨hnot, nodup_toList⟩)]
  rintro ⟨k', v'⟩
  rw [mem_cons, mem_toList_iff_getElem?_eq_some,
    mem_toList_iff_getElem?_eq_some, getElem?_erase_eq]
  by_cases hk : k = k'
  · subst hk
    simp [h, eq_comm]
  · simp [hk, Ne.symm hk]

theorem sumOf_erase (k : K) : sumOf f m = (m[k]?.map f).getD 0 + sumOf f (m.erase k) := by
  cases hk : m[k]? with
  | some v => simpa [sumOf] using ((perm_toList_erase hk).map fun entry => f entry.2).sum_eq
  | none =>
    have : m.erase k = m := by
      refine ExtTreeMap.ext_getElem? fun k' => ?_
      rw [getElem?_erase_eq]
      split
      · next heq => rw [← heq, hk]
      · rfl
    rw [this, map_none, getD_none, Nat.zero_add]

/-- Maps that differ at one key differ in the weight of its values. -/
theorem sumOf_update (h : ∀ k', k ≠ k' → m'[k']? = m[k']?) :
    sumOf f m' + (m[k]?.map f).getD 0 = sumOf f m + (m'[k]?.map f).getD 0 := by
  have herase : m'.erase k = m.erase k := by
    refine ExtTreeMap.ext_getElem? fun k' => ?_
    rw [getElem?_erase_eq, getElem?_erase_eq]
    split
    · rfl
    · next hne => exact h k' hne
  rw [sumOf_erase (m := m) k, sumOf_erase (m := m') k, herase]
  omega

theorem sumOf_insert : sumOf f (m.insert k v) + (m[k]?.map f).getD 0 = sumOf f m + f v := by
  have hother (k' : K) (hne : k ≠ k') : (m.insert k v)[k']? = m[k']? := by
    rw [getElem?_insert_eq, if_neg hne]
  have hsum := sumOf_update (f := f) hother
  rwa [getElem?_insert_eq, if_pos rfl] at hsum

theorem sumOf_modify (g : V → V) : sumOf f (m.modify k g) + (m[k]?.map f).getD 0 =
    sumOf f m + (m[k]?.map (f ∘ g)).getD 0 := by
  have hother (k' : K) (hne : k ≠ k') : (m.modify k g)[k']? = m[k']? := by
    rw [getElem?_modify_eq, if_neg hne]
  have hsum := sumOf_update (f := f) hother
  rwa [getElem?_modify_eq, if_pos rfl, Option.map_map] at hsum

end BTreeMap

end Tansu.Lib
