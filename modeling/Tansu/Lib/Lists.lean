import Mathlib

/-!
# Loops over lists

Facts about the ways a loop gives the elements of a list out: cutting it at
increasing offsets, and going round the takers in turn with one counter.
-/

namespace Tansu.Lib

open Std List

variable {α β ε : Type} {x : Except ε α} {b : β} {m : Nat}

/-! ## Ordered sets, iterated -/

/-- Collecting into an ordered set and iterating over it. -/
def sortedSet [Ord α] [TransOrd α] (xs : List α) : List α := (ExtTreeSet.ofList xs compare).toList

section

variable [Ord α] [TransOrd α] {xs : List α}

theorem pairwise_sortedSet (xs : List α) :
    (sortedSet xs).Pairwise fun a b => compare a b = .lt := ExtTreeSet.ordered_toList

variable [LawfulEqOrd α]

@[simp] theorem mem_sortedSet {a : α} : a ∈ sortedSet xs ↔ a ∈ xs := by
  classical
  let _ : BEq α := instBEqOfDecidableEq
  rw [sortedSet, ExtTreeSet.mem_toList, ExtTreeSet.mem_ofList, List.contains_iff_mem]

theorem nodup_sortedSet (xs : List α) : (sortedSet xs).Nodup := by
  refine (pairwise_sortedSet xs).imp fun h heq => ?_
  rw [heq, compare_self] at h
  cases h

end

/-! ## Loops over an entry -/

/-- `entry(..).or_default()` in a loop: the default is there once the loop has a turn. -/
theorem foldl_some_getD {g : β → α → β} {d : β} (l : List α) (o : Option β) :
    l.foldl (fun o a => some (g (o.getD d) a)) o =
      if l = [] then o else some (l.foldl g (o.getD d)) := by
  induction l generalizing o with
  | nil => rfl
  | cons a l ih =>
    rw [foldl_cons, ih, if_neg (cons_ne_nil a l)]
    split
    · next h => rw [h]; rfl
    · rfl

section

variable [LinearOrder α]

theorem foldl_min_le_init (l : List α) (x : α) : l.foldl min x ≤ x := by
  induction l generalizing x with
  | nil => exact le_rfl
  | cons y l ih => exact (ih (min x y)).trans (min_le_left x y)

theorem foldl_min_le {l : List α} {y : α} (h : y ∈ l) (x : α) : l.foldl min x ≤ y := by
  induction l generalizing x with
  | nil => cases h
  | cons z l ih =>
    rcases mem_cons.1 h with rfl | h
    · exact (foldl_min_le_init l _).trans (min_le_right x y)
    · exact ih h _

end

/-! ## Loops that can fail -/

theorem toOption_eq_some {a : α} : x.toOption = some a ↔ x = .ok a := by
  cases x <;> simp [Except.toOption]

theorem exists_of_map_eq_ok {f : α → β} (h : x.map f = .ok b) : ∃ a, x = .ok a ∧ f a = b := by
  cases x with
  | error e => cases h
  | ok a => exact ⟨a, rfl, Except.ok.inj h⟩

variable {f : α → Except ε β} {as : List α} {bs : List β} {i n : Nat} {log : List Nat}
  {S : Finset Nat}

theorem mapM_eq_ok : as.mapM f = .ok bs ↔ List.Forall₂ (fun a b => f a = .ok b) as bs := by
  induction as generalizing bs with
  | nil =>
    rw [mapM_nil, forall₂_nil_left_iff]
    constructor
    · rintro ⟨⟩
      rfl
    · rintro rfl
      rfl
  | cons a as ih =>
    rw [mapM_cons, forall₂_cons_left_iff]
    constructor
    · intro h
      cases hf : f a with
      | error e => rw [hf] at h; cases h
      | ok b =>
        rw [hf] at h
        cases htail : as.mapM f with
        | error e => rw [htail] at h; cases h
        | ok tail =>
          rw [htail] at h
          cases h
          exact ⟨b, tail, rfl, ih.1 htail, rfl⟩
    · rintro ⟨b, tail, hf, htail, rfl⟩
      rw [hf, ih.2 htail]
      rfl

/-- Every element has its result among those of the loop, and every result its element. -/
theorem mem_of_mapM_eq_ok (h : as.mapM f = .ok bs) :
    (∀ a ∈ as, ∃ b ∈ bs, f a = .ok b) ∧ ∀ b ∈ bs, ∃ a ∈ as, f a = .ok b := by
  have hall := mapM_eq_ok.1 h
  clear h
  induction hall with
  | nil => simp
  | @cons a b as bs hab _ ih =>
    constructor
    · intro x hx
      rcases mem_cons.1 hx with rfl | hx
      · exact ⟨b, mem_cons_self, hab⟩
      · obtain ⟨y, hy, hxy⟩ := ih.1 x hx
        exact ⟨y, mem_cons_of_mem b hy, hxy⟩
    · intro y hy
      rcases mem_cons.1 hy with rfl | hy
      · exact ⟨a, mem_cons_self, hab⟩
      · obtain ⟨x, hx, hxy⟩ := ih.2 y hy
        exact ⟨x, mem_cons_of_mem a hx, hxy⟩

theorem exists_mapM_eq_ok (h : ∀ a ∈ as, ∃ b, f a = .ok b) : ∃ bs, as.mapM f = .ok bs := by
  induction as with
  | nil => exact ⟨[], rfl⟩
  | cons a as ih =>
    obtain ⟨b, hb⟩ := h a mem_cons_self
    obtain ⟨bs, hbs⟩ := ih fun x hx => h x (mem_cons_of_mem a hx)
    exact ⟨b :: bs, mapM_eq_ok.2 (.cons hb (mapM_eq_ok.1 hbs))⟩

theorem forall₂_getElem? {R : α → β → Prop} (h : List.Forall₂ R as bs) (hb : bs[i]? = some b) :
    ∃ a, as[i]? = some a ∧ R a b := by
  induction h generalizing i with
  | nil => simp at hb
  | cons hab _ ih =>
    cases i with
    | zero =>
      simp only [getElem?_cons_zero, Option.some.injEq] at hb
      exact ⟨_, getElem?_cons_zero, hb ▸ hab⟩
    | succ i => exact ih hb

/-- The positions at which a property holds are as many as the elements with it. -/
theorem length_filter_range (as : List α) (d : α) (p : α → Bool) :
    ((List.range as.length).filter fun i => p (as.getD i d)).length = as.countP p := by
  have hmap : (List.range as.length).map (as.getD · d) = as := by
    refine ext_getElem (by simp) fun i h _ => ?_
    simp at h
    simp [h]
  rw [← countP_eq_length_filter]
  conv_rhs => rw [← hmap, countP_map]
  rfl

section

variable {f : Nat → α} (h : ∀ i : Nat, as[i]? = if i < n then some (f i) else none)

include h

theorem length_of_getElem? : as.length = n := by
  have hmap : as = (List.range n).map f := by
    refine List.ext_getElem? fun i => ?_
    rw [h i, List.getElem?_map]
    split
    next hi => rw [getElem?_range hi, Option.map_some]
    next hi => rw [List.getElem?_eq_none (by simpa using hi), Option.map_none]
  rw [hmap, length_map, length_range]

theorem eq_of_getElem? {i : Nat} {a : α} (ha : as[i]? = some a) : a = f i := by
  rw [h] at ha
  split at ha
  · exact (Option.some.inj ha).symm
  · cases ha

theorem exists_eq_of_mem {a : α} (ha : a ∈ as) : ∃ i, a = f i := by
  obtain ⟨i, hi⟩ := mem_iff_getElem?.1 ha
  exact ⟨i, eq_of_getElem? h hi⟩

end

/-! ## Cutting a list at offsets -/

/-- `xs[low..high]`. -/
def slice (xs : List α) (low high : Nat) : List α := (xs.drop low).take (high - low)

theorem length_slice {xs : List α} {low high : Nat} (h : high ≤ xs.length) :
    (slice xs low high).length = high - low := by
  rw [slice, length_take, length_drop]
  omega

theorem slice_isInfix (xs : List α) (low high : Nat) : slice xs low high <:+: xs :=
  ( take_prefix _ _).isInfix.trans (drop_suffix _ _).isInfix

/-- Consecutive slices are the list again. -/
theorem flatMap_slice {off : Nat → Nat} (h0 : off 0 = 0) (hmono : Monotone off) (xs : List α)
    (n : Nat) :
    ((List.range n).flatMap fun j => slice xs (off j) (off (j + 1))) = xs.take (off n) := by
  induction n with
  | zero => simp [h0]
  | succ n ih =>
    have hle : off n ≤ off (n + 1) := hmono n.le_succ
    rw [range_succ, flatMap_append, ih, flatMap_singleton, slice, ← take_add,
      Nat.add_sub_cancel' hle]

theorem sum_count_eq_length (hlog : ∀ i ∈ log, i ∈ S) : ∑ j ∈ S, log.count j = log.length := by
  simpa using Multiset.sum_count_eq_card (m := (log : Multiset Nat)) hlog

theorem count_le_of_even (hlog : ∀ i ∈ log, i ∈ S)
    (heven : ∀ i ∈ S, ∀ j ∈ S, log.count i ≤ log.count j + 1) (hlength : log.length ≤ m * S.card)
    (hi : i ∈ S) : log.count i ≤ m := by
  by_contra hgt
  have hlt : ∑ _j ∈ S, m < ∑ j ∈ S, log.count j := by
    refine Finset.sum_lt_sum (fun j hj => ?_) ⟨i, hi, by omega⟩
    have := heven i hi j hj
    omega
  rw [Finset.sum_const, smul_eq_mul, sum_count_eq_length hlog, Nat.mul_comm] at hlt
  omega

/-- Somebody has more than a part if there is more than that to take. -/
theorem exists_lt_count (hlog : ∀ i ∈ log, i ∈ S) (hlength : m * S.card < log.length) :
    ∃ i ∈ S, m < log.count i := by
  refine Finset.exists_lt_of_sum_lt ?_
  rw [Finset.sum_const, smul_eq_mul, sum_count_eq_length hlog, Nat.mul_comm]
  exact hlength

/-! ## Going round in turn -/

/-- How far the taker `i` of `n` is ahead of the counter. -/
def ahead (n c i : Nat) : Nat := if c % n ≤ i then i - c % n else i + n - c % n

theorem ahead_add_self (n c i : Nat) : ahead n (c + n) i = ahead n c i := by simp [ahead]

theorem succ_mod (hn : 0 < n) (c : Nat) : (c + 1) % n = if c % n + 1 = n then 0 else c % n + 1 := by
  have hlt := Nat.mod_lt c hn
  split
  next h => rw [← Nat.mod_add_mod, h, Nat.mod_self]
  next h => rw [← Nat.mod_add_mod, Nat.mod_eq_of_lt (by omega)]

/-- The counter reaches the taker it points at last, and every other one a step sooner. -/
theorem ahead_succ (hi : i < n) (c : Nat) :
    ahead n (c + 1) i = if i = c % n then n - 1 else ahead n c i - 1 := by
  have hlt := Nat.mod_lt c (by omega : 0 < n)
  unfold ahead
  rw [succ_mod (by omega)]
  split_ifs <;> omega

theorem ahead_eq_zero (hi : i < n) (c : Nat) : ahead n c i = 0 ↔ i = c % n := by
  have hlt := Nat.mod_lt c (by omega : 0 < n)
  unfold ahead
  split <;> omega

theorem ahead_lt (hi : i < n) (c : Nat) : ahead n c i < n := by
  have hlt := Nat.mod_lt c (by omega : 0 < n)
  unfold ahead
  split <;> omega

theorem ahead_injective {j : Nat} (hi : i < n) (hj : j < n) {c : Nat}
    (h : ahead n c i = ahead n c j) : i = j := by
  have hlt := Nat.mod_lt c (by omega : 0 < n)
  unfold ahead at h
  split at h <;> split at h <;> omega

theorem add_ahead_mod (hi : i < n) (c : Nat) : (c + ahead n c i) % n = i := by
  have hlt := Nat.mod_lt c (by omega : 0 < n)
  rw [← Nat.mod_add_mod]
  unfold ahead
  split
  · rw [Nat.add_sub_cancel' (by omega), Nat.mod_eq_of_lt hi]
  · rw [Nat.add_sub_cancel' (by omega), Nat.add_mod_right, Nat.mod_eq_of_lt hi]

/-- The takers in `S` have been served in turn: the nearer one is to the counter, the longer ago
it was served, and nobody is more than one behind. -/
def InTurn (n c : Nat) (S : Nat → Prop) (count : Nat → Nat) : Prop :=
  ∀ i j, i < n → j < n → S i → S j → ahead n c i < ahead n c j →
    count i ≤ count j ∧ count j ≤ count i + 1

section

variable {n c : Nat} {S : Nat → Prop} {count : Nat → Nat} {count' : Nat → Nat}

theorem InTurn.of_zero (h : ∀ i, count i = 0) : InTurn n c S count := by
  intro i j _ _ _ _ _
  rw [h i, h j]
  exact ⟨le_rfl, Nat.zero_le _⟩

section

variable (h : InTurn n c S count)
include h

theorem InTurn.congr (heq : ∀ i, count' i = count i) : InTurn n c S count' := by
  rwa [show count' = count from funext heq]

theorem InTurn.balanced {j : Nat} (hi : i < n) (hj : j < n) (hSi : S i) (hSj : S j) :
    count i ≤ count j + 1 := by
  rcases Nat.lt_trichotomy (ahead n c i) (ahead n c j) with hlt | heq | hgt
  · exact (h i j hi hj hSi hSj hlt).1.trans (Nat.le_succ _)
  · rw [ahead_injective hi hj heq]
    exact Nat.le_succ _
  · exact (h j i hj hi hSj hSi hgt).2

theorem InTurn.round : InTurn n (c + n) S count := by
  intro i j hi hj hSi hSj hlt
  rw [ahead_add_self, ahead_add_self] at hlt
  exact h i j hi hj hSi hSj hlt

theorem InTurn.skip (hS : ¬ S (c % n)) : InTurn n (c + 1) S count := by
  intro i j hi hj hSi hSj hlt
  have hi' : i ≠ c % n := fun heq => hS (heq ▸ hSi)
  have hj' : j ≠ c % n := fun heq => hS (heq ▸ hSj)
  have hi0 := (ahead_eq_zero hi c).not.2 hi'
  have hj0 := (ahead_eq_zero hj c).not.2 hj'
  rw [ahead_succ hi, ahead_succ hj, if_neg hi', if_neg hj'] at hlt
  exact h i j hi hj hSi hSj (by omega)

theorem InTurn.take (hcount : ∀ i, count' i = count i + if i = c % n then 1 else 0) :
    InTurn n (c + 1) S count' := by
  intro i j hi hj hSi hSj hlt
  rw [ahead_succ hi, ahead_succ hj] at hlt
  rw [hcount i, hcount j]
  have hjn := ahead_lt hj c
  have hi0 := ahead_eq_zero hi c
  have hj0 := ahead_eq_zero hj c
  by_cases hi' : i = c % n
  · -- the one just served is now the furthest from the counter
    rw [if_pos hi'] at hlt
    split at hlt <;> omega
  · rw [if_neg hi'] at hlt ⊢
    by_cases hj' : j = c % n
    · rw [if_pos hj']
      have := h j i hj hi hSj hSi (by omega)
      omega
    · rw [if_neg hj'] at hlt ⊢
      exact h i j hi hj hSi hSj (by omega)

end

end

end Tansu.Lib
