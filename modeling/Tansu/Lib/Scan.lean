import Tansu.Lib.OrdMap

/-!
# Prefix scans

A store that iterates over its keys in lexicographic order finds the keys with a common
beginning next to each other.  A loop that starts at the beginning, or at some key that
has it, and stops at the first key that does not, visits all of them from there on.
-/

namespace Tansu.Lib.Scan

open Std List

variable {α : Type} [Ord α] [TransOrd α] [LawfulEqOrd α] {pre k : List α}

omit [TransOrd α] [LawfulEqOrd α] in
theorem compare_cons_cons (a b : α) (as bs : List α) :
    compare (a :: as) (b :: bs) = (compare a b).then (compare as bs) :=
  List.compareLex_cons_cons

omit [LawfulEqOrd α] in
theorem isLE_of_prefix (h : pre <+: k) : (compare pre k).isLE := by
  induction pre generalizing k with
  | nil => cases k <;> simp
  | cons a pre ih =>
    obtain ⟨rest, rfl⟩ := h
    rw [cons_append, compare_cons_cons, compare_self, Ordering.eq_then]
    exact ih (prefix_append pre rest)

/-- Between two lists with a common beginning there are only lists that begin so. -/
theorem prefix_of_between {k' k'' : List α} (h : pre <+: k) (h'' : pre <+: k'')
    (hle : (compare k k').isLE) (hle' : (compare k' k'').isLE) : pre <+: k' := by
  induction pre generalizing k k' k'' with
  | nil => exact nil_prefix
  | cons a pre ih =>
    obtain ⟨rest, rfl⟩ := h
    obtain ⟨rest'', rfl⟩ := h''
    cases k' with
    | nil => simp at hle
    | cons b k' =>
      rw [cons_append, compare_cons_cons] at hle hle'
      have hab : compare a b = .eq := by
        have h₁ : (compare a b).isLE := Ordering.isLE_left_of_isLE_then hle
        have h₂ : (compare b a).isLE := Ordering.isLE_left_of_isLE_then hle'
        exact Std.OrientedCmp.isLE_antisymm h₁ h₂
      obtain rfl := LawfulEqOrd.eq_of_compare hab
      rw [compare_self, Ordering.eq_then] at hle hle'
      exact cons_prefix_cons.2
        ⟨rfl, ih (prefix_append pre rest) (prefix_append pre rest'') hle hle'⟩

variable [BEq α] [LawfulBEq α] {β : Type} (key : β → List α)

/-- A loop over keys in order, none of them below a key that begins with `pre`, which stops
at the first key that does not begin so. -/
theorem takeWhile_prefix {start : List α} (hpre : pre <+: start) {entries : List β}
    (hsorted : entries.Pairwise fun x y => (compare (key x) (key y)).isLE)
    (hstart : ∀ x ∈ entries, (compare start (key x)).isLE) :
    entries.takeWhile (fun x => pre.isPrefixOf (key x)) =
      entries.filter fun x => pre.isPrefixOf (key x) := by
  induction entries with
  | nil => rfl
  | cons x entries ih =>
    obtain ⟨hx, hsorted⟩ := pairwise_cons.1 hsorted
    by_cases hprefix : pre.isPrefixOf (key x)
    · rw [takeWhile_cons, if_pos hprefix, filter_cons, if_pos hprefix,
        ih hsorted fun y hy => hstart y (mem_cons_of_mem x hy)]
    · rw [takeWhile_cons, if_neg hprefix, filter_cons, if_neg hprefix, eq_comm,
        filter_eq_nil_iff]
      intro y hy hyprefix
      refine hprefix ( isPrefixOf_iff_prefix.2 ?_)
      exact prefix_of_between hpre ( isPrefixOf_iff_prefix.1 hyprefix)
        (hstart x mem_cons_self) (hx y hy)

end Tansu.Lib.Scan
