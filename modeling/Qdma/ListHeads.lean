/-
# Entries on doubly linked lists

Lists with heads numbered by `ℕ`, and entries that each have one node to be linked by.

* `OnlyOn heads a i`: the node of `a` is linked once, on list `i`.
* `Off heads a`: it is linked nowhere.

`enqueue` (`list_add_tail`) takes a node that is `Off` to one that is `OnlyOn` a list, `unlink`
(`list_del`) takes it back, and both leave all other nodes where they are.
-/
import Mathlib.Data.List.Basic
import Mathlib.Logic.Function.Basic

namespace ListHeads

variable {α : Type*} [DecidableEq α]

/-- `a` is linked once, on list `i`. -/
def OnlyOn (heads : ℕ → List α) (a : α) (i : ℕ) : Prop :=
  ∀ j, (heads j).count a = if j = i then 1 else 0

/-- `a` is linked nowhere. -/
def Off (heads : ℕ → List α) (a : α) : Prop := ∀ j, (heads j).count a = 0

/-- `a` is added at the end of list `i`. -/
def enqueue (heads : ℕ → List α) (i : ℕ) (a : α) : ℕ → List α :=
  Function.update heads i (heads i ++ [a])

/-- `a` is taken off list `i`. -/
def unlink (heads : ℕ → List α) (i : ℕ) (a : α) : ℕ → List α :=
  Function.update heads i ((heads i).erase a)

theorem OnlyOn.mem {heads : ℕ → List α} {a : α} {i : ℕ} (h : OnlyOn heads a i) :
    a ∈ heads i := by
  have hcount := h i
  rw [if_pos rfl] at hcount
  exact List.one_le_count_iff.mp (Nat.le_of_eq hcount.symm)

theorem Off.not_mem {heads : ℕ → List α} {a : α} (h : Off heads a) (i : ℕ) : a ∉ heads i :=
  List.count_eq_zero.mp (h i)

/-- A node linked nowhere is linked on the list it is added to. -/
theorem Off.enqueue {heads : ℕ → List α} {a : α} (h : Off heads a) (i : ℕ) :
    OnlyOn (enqueue heads i a) a i := by
  intro j
  unfold ListHeads.enqueue
  by_cases hj : j = i
  · subst hj
    rw [Function.update_self, List.count_append, h j, List.count_singleton_self, if_pos rfl]
  · rw [Function.update_of_ne hj, if_neg hj]
    exact h j

/-- A node taken off its list is linked nowhere. -/
theorem OnlyOn.unlink {heads : ℕ → List α} {a : α} {i : ℕ} (h : OnlyOn heads a i) :
    Off (unlink heads i a) a := by
  intro j
  unfold ListHeads.unlink
  by_cases hj : j = i
  · subst hj
    rw [Function.update_self, List.count_erase_self, h j, if_pos rfl]
  · rw [Function.update_of_ne hj, h j, if_neg hj]

/-- A node linked nowhere stays so when it is taken off a list. -/
theorem Off.unlink {heads : ℕ → List α} {a : α} (h : Off heads a) (i : ℕ) :
    Off (unlink heads i a) a := by
  intro j
  unfold ListHeads.unlink
  by_cases hj : j = i
  · subst hj
    rw [Function.update_self, List.count_erase_self, h j]
  · rw [Function.update_of_ne hj]
    exact h j

/-- Adding a node leaves the others where they are. -/
theorem count_enqueue {heads : ℕ → List α} {a b : α} (hne : b ≠ a) (i j : ℕ) :
    (enqueue heads i a j).count b = (heads j).count b := by
  unfold enqueue
  by_cases hj : j = i
  · subst hj
    have hnone : [a].count b = 0 := List.count_eq_zero.mpr (by simpa using hne)
    rw [Function.update_self, List.count_append, hnone, Nat.add_zero]
  · rw [Function.update_of_ne hj]

/-- So does taking one off. -/
theorem count_unlink {heads : ℕ → List α} {a b : α} (hne : b ≠ a) (i j : ℕ) :
    (unlink heads i a j).count b = (heads j).count b := by
  unfold unlink
  by_cases hj : j = i
  · subst hj
    rw [Function.update_self, List.count_erase_of_ne hne]
  · rw [Function.update_of_ne hj]

/-- Where `a` is linked depends on its counts alone. -/
theorem OnlyOn.congr {heads heads' : ℕ → List α} {a : α} {i : ℕ} (h : OnlyOn heads a i)
    (heq : ∀ j, (heads' j).count a = (heads j).count a) : OnlyOn heads' a i :=
  fun j => (heq j).trans (h j)

theorem Off.congr {heads heads' : ℕ → List α} {a : α} (h : Off heads a)
    (heq : ∀ j, (heads' j).count a = (heads j).count a) : Off heads' a :=
  fun j => (heq j).trans (h j)

end ListHeads
