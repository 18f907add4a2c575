/-
# The least loaded

Work is given to one of `n` servers, to one after the other of which a scan comes.  If it is always
one with the least load, the loads stay balanced, `Balanced.give`.

A scan that compares every load with that of the first server, and not with the least it has seen,
finds the last one that is lighter than the first: `Compared` says what it can pick, and
`Compared.least_iff` when that has the least load.  For balanced loads it always has.
-/
import Mathlib.Algebra.BigOperators.Group.Finset.Piecewise
import Mathlib.Algebra.Group.Action.Defs
import Mathlib.Algebra.Order.BigOperators.Group.Finset

namespace LeastLoaded

variable {load : ℕ → ℕ} {n i : ℕ}

/-- Server `i` has the least load. -/
structure Least (load : ℕ → ℕ) (n i : ℕ) : Prop where
  lt : i < n
  le : ∀ j < n, load i ≤ load j

/-- The loads of any two servers differ by at most one. -/
def Balanced (load : ℕ → ℕ) (n : ℕ) : Prop := ∀ i < n, ∀ j < n, load i ≤ load j + 1

/-- Work is given to server `i`. -/
def give (load : ℕ → ℕ) (i : ℕ) : ℕ → ℕ := Function.update load i (load i + 1)

/-- The load of all servers. -/
def total (load : ℕ → ℕ) (n : ℕ) : ℕ := ∑ i ∈ Finset.range n, load i

/-- **The loads stay balanced** if work is given to one with the least. -/
theorem Balanced.give (h : Balanced load n) (hi : Least load n i) : Balanced (give load i) n := by
  intro a ha b hb
  unfold LeastLoaded.give
  have hab := h a ha b hb
  have hib := hi.le b hb
  by_cases hai : a = i
  · rw [hai, Function.update_self]
    by_cases hbi : b = i
    · rw [hbi, Function.update_self]
      omega
    · rw [Function.update_of_ne hbi]
      omega
  · rw [Function.update_of_ne hai]
    by_cases hbi : b = i
    · rw [hbi, Function.update_self]
      rw [hbi] at hab
      omega
    · rw [Function.update_of_ne hbi]
      exact hab

theorem total_give (hi : i < n) : total (give load i) n = total load n + 1 := by
  unfold total give
  rw [Finset.sum_update_of_mem (Finset.mem_range.mpr hi), Finset.sdiff_singleton_eq_erase,
    Nat.add_right_comm, Finset.add_sum_erase _ load (Finset.mem_range.mpr hi)]

theorem Least.mul_le_total (h : Least load n i) : n * load i ≤ total load n := by
  unfold total
  have hsum := Finset.card_nsmul_le_sum (Finset.range n) load (load i)
    (fun j hj => h.le j (Finset.mem_range.mp hj))
  rwa [Finset.card_range, smul_eq_mul] at hsum

/-! ## Comparing with the first -/

/-- Server `i` is the last one that has less than the first. -/
structure LastLighter (load : ℕ → ℕ) (n i : ℕ) : Prop where
  lt : i < n
  lighter : load i < load 0
  last : ∀ j, i < j → j < n → load 0 ≤ load j

theorem LastLighter.unique {j : ℕ} (hi : LastLighter load n i) (hj : LastLighter load n j) :
    i = j := by
  rcases lt_trichotomy i j with hlt | heq | hgt
  · exact absurd (hi.last j hlt hj.lt) (Nat.not_le.mpr hj.lighter)
  · exact heq
  · exact absurd (hj.last i hgt hi.lt) (Nat.not_le.mpr hi.lighter)

/-- **What a scan picks** that stops at an idle server and else compares with the first. -/
inductive Compared (load : ℕ → ℕ) (n : ℕ) : ℕ → Prop where
  | idle {i : ℕ} (hlt : i < n) (hidle : load i = 0) : Compared load n i
  | first (hpos : 0 < n) (hle : ∀ j < n, load 0 ≤ load j) : Compared load n 0
  | last {i : ℕ} (h : LastLighter load n i) (hbusy : ∀ j < n, load j ≠ 0) : Compared load n i

/-- An idle server has the least load. -/
theorem least_of_idle (hlt : i < n) (hidle : load i = 0) : Least load n i :=
  ⟨hlt, fun j _ => hidle ▸ Nat.zero_le (load j)⟩

theorem Compared.lt (h : Compared load n i) : i < n := by
  cases h with
  | idle hlt _ => exact hlt
  | first hpos _ => exact hpos
  | last h _ => exact h.lt

/-- **When the pick has the least load**: there is an idle server, or the last one that is lighter
than the first has the least load of all. -/
theorem Compared.least_iff (h : Compared load n i) :
    Least load n i ↔ (∃ j < n, load j = 0) ∨ ∀ j, LastLighter load n j → Least load n j := by
  cases h with
  | idle hlt hidle => exact iff_of_true (least_of_idle hlt hidle) (.inl ⟨i, hlt, hidle⟩)
  | first hpos hle =>
      refine iff_of_true ⟨hpos, hle⟩ (.inr fun j hj => ?_)
      exact absurd (hle j hj.lt) (Nat.not_le.mpr hj.lighter)
  | last h hbusy =>
      rw [or_iff_right (fun ⟨j, hj, hidle⟩ => hbusy j hj hidle)]
      exact ⟨fun hleast j hj => h.unique hj ▸ hleast, fun hall => hall i h⟩

/-- For balanced loads a server that is lighter than the first has the least. -/
theorem Balanced.least_of_lighter (h : Balanced load n) (hi : LastLighter load n i) :
    Least load n i := by
  refine ⟨hi.lt, fun j hj => ?_⟩
  have hzero := h 0 (Nat.zero_lt_of_lt hi.lt) j hj
  have hlighter := hi.lighter
  omega

theorem Balanced.least_of_compared (h : Balanced load n) (hi : Compared load n i) :
    Least load n i :=
  hi.least_iff.mpr (.inr fun _ hj => h.least_of_lighter hj)

end LeastLoaded
