/-
# Scattered writes

A list of values is written to a list of places of a memory, one after the other; if the places
are different, reading them gives the values back (`map_write`).  `map_write_append` is the step
of a copy that is made piece by piece.
-/
import Mathlib.Data.List.Basic
import Mathlib.Data.List.Nodup
import Mathlib.Logic.Function.Basic

namespace Scatter

variable {α β : Type*} [DecidableEq α]

/-- The values `bs` written to the places `as`, in order. -/
def write (m : α → β) : List α → List β → α → β
  | a :: as, b :: bs => write (Function.update m a b) as bs
  | _, _ => m

@[simp] theorem write_nil (m : α → β) (bs : List β) : write m [] bs = m := by
  cases bs <;> rfl

theorem write_cons (m : α → β) (a : α) (as : List α) (b : β) (bs : List β) :
    write m (a :: as) (b :: bs) = write (Function.update m a b) as bs := rfl

/-- Other places keep their values. -/
theorem write_of_notMem {m : α → β} {as : List α} {bs : List β} {x : α} (h : x ∉ as) :
    write m as bs x = m x := by
  induction as generalizing m bs with
  | nil => rw [write_nil]
  | cons a as ih =>
      cases bs with
      | nil => rfl
      | cons b bs =>
          rw [write_cons, ih (fun hx => h (List.mem_cons_of_mem _ hx))]
          have hne : x ≠ a := fun hx => h (by rw [hx]; exact List.mem_cons_self ..)
          exact Function.update_of_ne hne _ _

theorem map_write_of_disjoint {m : α → β} {as xs : List α} {bs : List β}
    (h : ∀ x ∈ xs, x ∉ as) : xs.map (write m as bs) = xs.map m :=
  List.map_congr_left (fun x hx => write_of_notMem (h x hx))

/-- **What was written is read back.** -/
theorem map_write {m : α → β} {as : List α} {bs : List β} (hnd : as.Nodup)
    (hlen : as.length = bs.length) : as.map (write m as bs) = bs := by
  induction as generalizing m bs with
  | nil => exact (List.length_eq_zero_iff.mp hlen.symm).symm
  | cons a as ih =>
      cases bs with
      | nil => cases hlen
      | cons b bs =>
          obtain ⟨ha, hnd⟩ := List.nodup_cons.mp hnd
          rw [write_cons, List.map_cons, ih hnd (Nat.succ.inj hlen), write_of_notMem ha,
            Function.update_self]

/-- **A copy goes on**: the places written so far keep their values, those written now have
theirs. -/
theorem map_write_append {m : α → β} {xs as : List α} {bs : List β} (hnd : (xs ++ as).Nodup)
    (hlen : as.length = bs.length) : (xs ++ as).map (write m as bs) = xs.map m ++ bs := by
  obtain ⟨-, has, hdisj⟩ := List.nodup_append.mp hnd
  rw [List.map_append, map_write has hlen,
    map_write_of_disjoint (fun x hx hin => hdisj x hx x hin rfl)]

end Scatter
