/-
# A file of registers

Registers are a function from addresses to values.  What a program does to them is a list of writes,
and `puts_apply` says what is found at an address then: the last value written to it, or else what
was there before.

A table is written by a loop that goes from one register to the next; `lastPut_row` and
`lastPut_row_none` say what it leaves where.
-/
import Mathlib.Data.List.Basic
import Mathlib.Logic.Function.Basic
import Mathlib.Tactic.Common

namespace RegFile

variable {V : Type*}

/-! ## Writes -/

/-- The registers after the writes `ws`, each an address and a value. -/
def puts (r : ℕ → V) (ws : List (ℕ × V)) : ℕ → V :=
  ws.foldl (fun r w => Function.update r w.1 w.2) r

/-- What the writes leave at an address, if any goes there. -/
def lastPut : List (ℕ × V) → ℕ → Option V
  | [], _ => none
  | w :: ws, a => (lastPut ws a).or (if w.1 = a then some w.2 else none)

/-- **The last write wins.** -/
theorem puts_apply (r : ℕ → V) (ws : List (ℕ × V)) (a : ℕ) :
    puts r ws a = (lastPut ws a).getD (r a) := by
  induction ws generalizing r with
  | nil => rfl
  | cons w ws ih =>
      show puts (Function.update r w.1 w.2) ws a = _
      rw [ih, lastPut]
      cases lastPut ws a with
      | some v => rfl
      | none =>
          by_cases h : w.1 = a
          · rw [if_pos h, ← h]
            exact Function.update_self ..
          · rw [if_neg h]
            exact Function.update_of_ne (Ne.symm h) ..

theorem puts_append (r : ℕ → V) (ws ws' : List (ℕ × V)) :
    puts r (ws ++ ws') = puts (puts r ws) ws' := List.foldl_append

theorem lastPut_append (ws ws' : List (ℕ × V)) (a : ℕ) :
    lastPut (ws ++ ws') a = (lastPut ws' a).or (lastPut ws a) := by
  induction ws with
  | nil => exact (Option.or_none).symm
  | cons w ws ih =>
      show (lastPut (ws ++ ws') a).or _ = _
      rw [ih, lastPut, Option.or_assoc]

/-- Writes that go elsewhere. -/
theorem lastPut_eq_none {ws : List (ℕ × V)} {a : ℕ} (h : ∀ w ∈ ws, w.1 ≠ a) :
    lastPut ws a = none := by
  induction ws with
  | nil => rfl
  | cons w ws ih =>
      rw [lastPut, ih (fun w' hw' => h w' (List.mem_cons_of_mem _ hw')),
        if_neg (h w (List.mem_cons_self ..))]
      rfl

/-! ## Runs -/

/-- What operations leave at an address, by what each of them does: the last that goes there. -/
theorem lastPut_flatMap {Op : Type*} (writes : Op → List (ℕ × V)) (ops : List Op) (a : ℕ) :
    lastPut (ops.flatMap writes) a = ops.reverse.findSome? (fun op => lastPut (writes op) a) := by
  induction ops with
  | nil => rfl
  | cons op ops ih =>
      rw [List.flatMap_cons, lastPut_append, ih, List.reverse_cons, List.findSome?_append]
      congr 1
      rw [List.findSome?_cons]
      cases lastPut (writes op) a <;> rfl

/-! ## Tables -/

/-- The writes of a loop over the registers from `base` on. -/
def row (base step : ℕ) : List V → List (ℕ × V)
  | [] => []
  | v :: vs => (base, v) :: row (base + step) step vs

/-- A loop that goes upwards does not come back. -/
theorem lastPut_row_none {base step : ℕ} {vs : List V} {a : ℕ}
    (h : ∀ i < vs.length, base + step * i ≠ a) : lastPut (row base step vs) a = none := by
  induction vs generalizing base with
  | nil => rfl
  | cons v vs ih =>
      have hrest : lastPut (row (base + step) step vs) a = none := by
        refine ih (fun i hi => ?_)
        rw [Nat.add_assoc, Nat.add_comm step, ← Nat.mul_succ]
        exact h (i + 1) (Nat.succ_lt_succ hi)
      have hbase : base ≠ a := h 0 (Nat.succ_pos _)
      rw [row, lastPut, hrest, if_neg hbase]
      rfl

/-- **What a loop leaves in the registers it comes to.** -/
theorem lastPut_row {base step : ℕ} (hstep : 0 < step) (vs : List V) (i : ℕ) :
    lastPut (row base step vs) (base + step * i) = vs[i]? := by
  induction vs generalizing base i with
  | nil => rfl
  | cons v vs ih =>
      rw [row, lastPut]
      cases i with
      | zero =>
          have hrest : lastPut (row (base + step) step vs) (base + step * 0) = none :=
            lastPut_row_none (fun i _ => by omega)
          rw [hrest, Nat.mul_zero, Nat.add_zero, if_pos rfl]
          rfl
      | succ i =>
          have hne : base ≠ base + step * (i + 1) := by
            have hpos := Nat.mul_pos hstep (Nat.succ_pos i)
            exact Nat.ne_of_lt (Nat.lt_add_of_pos_right hpos)
          rw [if_neg hne, Option.or_none, List.getElem?_cons_succ, ← ih, Nat.mul_succ,
            Nat.add_comm (step * i), Nat.add_assoc]

end RegFile
