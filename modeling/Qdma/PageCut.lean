/-
# Cutting an interval at the pages

An interval of `len` bytes that starts at offset `o` of a page of `p` bytes is cut where a page
ends: `bytesOn p o len j` bytes of it lie on the first `j` pages.  What is proved is that the pieces
are what they should be: each lies on one page, they add up, none but the first has an offset, and
none is empty as long as there are bytes left.
-/
import Mathlib.Data.Nat.Basic
import Mathlib.Order.Monotone.Basic
import Mathlib.Order.MinMax
import Mathlib.Algebra.BigOperators.Group.List.Basic
import Mathlib.Algebra.Ring.Nat

namespace PageCut

/-- How many bytes lie on the first `j` pages. -/
def bytesOn (p o len j : ℕ) : ℕ := min (j * p - o) len

/-- The pages an interval from `buf` on touches, from that of its first byte to that of its last;
one if it is empty. -/
def touched (p buf len : ℕ) : ℕ := if len = 0 then 1 else (buf + len - 1) / p - buf / p + 1

variable {p o len j : ℕ}

/-! ## The cuts -/

theorem bytesOn_zero : bytesOn p o len 0 = 0 := by
  unfold bytesOn
  rw [Nat.zero_mul, Nat.zero_sub, Nat.zero_min]

theorem bytesOn_mono : Monotone (bytesOn p o len) := by
  intro i j hij
  have hmul : i * p ≤ j * p := Nat.mul_le_mul_right p hij
  exact min_le_min (Nat.sub_le_sub_right hmul o) le_rfl

theorem bytesOn_of_le (h : j * p ≤ o + len) : bytesOn p o len j = j * p - o := by
  unfold bytesOn
  exact min_eq_left (by omega)

theorem bytesOn_all (h : o + len ≤ j * p) : bytesOn p o len j = len := by
  unfold bytesOn
  exact min_eq_right (by omega)

/-- **The first page, and then the rest**, which starts where the first page ends. -/
theorem bytesOn_succ (ho : o < p) :
    bytesOn p o len (j + 1) = min (p - o) len +
      bytesOn p ((o + min (p - o) len) % p) (len - min (p - o) len) j := by
  by_cases hle : p - o ≤ len
  · -- the rest starts at the start of a page
    have hnext : (o + (p - o)) % p = 0 := by
      rw [show o + (p - o) = p by omega, Nat.mod_self]
    rw [min_eq_left hle, hnext]
    unfold bytesOn
    rw [Nat.succ_mul]
    omega
  · rw [min_eq_right (by omega), Nat.sub_self]
    unfold bytesOn
    rw [Nat.succ_mul]
    omega

/-! ## The pieces -/

/-- A piece lies on its page. -/
theorem piece_fits (ho : o < p) :
    (o + bytesOn p o len j) % p + (bytesOn p o len (j + 1) - bytesOn p o len j) ≤ p := by
  by_cases hle : j * p ≤ o + len
  · rw [bytesOn_of_le hle]
    have hsucc : bytesOn p o len (j + 1) ≤ (j + 1) * p - o := min_le_left _ _
    rw [Nat.succ_mul] at hsucc
    cases j with
    | zero =>
        rw [Nat.zero_mul, Nat.zero_sub, Nat.add_zero, Nat.mod_eq_of_lt ho]
        omega
    | succ j =>
        have hp : p ≤ (j + 1) * p := Nat.le_mul_of_pos_left p j.succ_pos
        rw [show o + ((j + 1) * p - o) = (j + 1) * p by omega, Nat.mul_mod_left]
        omega
  · -- all bytes lie on the pages before, and the piece is empty
    have hall : bytesOn p o len (j + 1) = len := by
      refine bytesOn_all ?_
      rw [Nat.succ_mul]
      omega
    rw [bytesOn_all (by omega), hall, Nat.sub_self, Nat.add_zero]
    exact (Nat.mod_lt _ (by omega)).le

/-- Only the first piece has an offset, as long as there are bytes left. -/
theorem piece_offset (ho : o < p) (hj : j ≠ 0) (hle : j * p ≤ o + len) :
    (o + bytesOn p o len j) % p = 0 := by
  have hp : p ≤ j * p := Nat.le_mul_of_pos_left p (Nat.pos_of_ne_zero hj)
  rw [bytesOn_of_le hle, show o + (j * p - o) = j * p by omega, Nat.mul_mod_left]

theorem piece_pos (ho : o < p) (hlt : j * p < o + len) (hlen : 0 < len) :
    bytesOn p o len j < bytesOn p o len (j + 1) := by
  rw [bytesOn_of_le hlt.le]
  unfold bytesOn
  rw [Nat.succ_mul]
  omega

/-- The pieces add up. -/
theorem sum_pieces (n : ℕ) :
    ((List.range n).map (fun j => bytesOn p o len (j + 1) - bytesOn p o len j)).sum =
      bytesOn p o len n := by
  induction n with
  | zero => exact bytesOn_zero.symm
  | succ n ih =>
      have hmono : bytesOn p o len n ≤ bytesOn p o len (n + 1) := bytesOn_mono n.le_succ
      rw [List.range_succ, List.map_append, List.sum_append, ih, List.map_singleton,
        List.sum_singleton]
      omega

/-- A piece lies on the page that many pages from the first. -/
theorem piece_page {buf : ℕ} (hp : 0 < p) (hle : j * p ≤ buf % p + len) :
    (buf + bytesOn p (buf % p) len j) / p = buf / p + j := by
  have hsplit := Nat.div_add_mod buf p
  have ho : buf % p < p := Nat.mod_lt _ hp
  rw [bytesOn_of_le hle]
  cases j with
  | zero => rw [Nat.zero_mul, Nat.zero_sub, Nat.add_zero, Nat.add_zero]
  | succ j =>
      have hple : p ≤ (j + 1) * p := Nat.le_mul_of_pos_left p j.succ_pos
      rw [show buf + ((j + 1) * p - buf % p) = p * (buf / p) + (j + 1) * p by omega,
        Nat.mul_comm p, ← Nat.add_mul, Nat.mul_div_cancel _ hp]

/-! ## How many there are -/

/-- The pages that are touched are as many as the pieces it takes. -/
theorem touched_eq {buf : ℕ} (hp : 0 < p) (hlen : 0 < len) :
    touched p buf len = (buf % p + len + p - 1) / p := by
  have hsplit := Nat.div_add_mod buf p
  unfold touched
  rw [if_neg hlen.ne', show buf + len - 1 = p * (buf / p) + (buf % p + len - 1) by omega,
    Nat.mul_add_div hp, Nat.add_sub_cancel_left,
    show buf % p + len + p - 1 = buf % p + len - 1 + p by omega, Nat.add_div_right _ hp]

/-- The last page is needed, and with it there is room for all. -/
theorem touched_spec (buf : ℕ) (hp : 0 < p) (hlen : 0 < len) :
    (touched p buf len - 1) * p < buf % p + len ∧ buf % p + len ≤ touched p buf len * p := by
  have hdiv := Nat.div_add_mod (buf % p + len + p - 1) p
  have hmod : (buf % p + len + p - 1) % p < p := Nat.mod_lt _ hp
  rw [← touched_eq hp hlen, Nat.mul_comm] at hdiv
  rw [Nat.sub_mul, Nat.one_mul]
  omega

/-- Hardly more pages than bytes. -/
theorem touched_le {buf : ℕ} (hp : 0 < p) : touched p buf len ≤ len + 1 := by
  by_cases h0 : len = 0
  · unfold touched
    rw [if_pos h0]
    exact Nat.le_add_left _ _
  · have ho : buf % p < p := Nat.mod_lt _ hp
    have hspec := (touched_spec buf hp (Nat.pos_of_ne_zero h0)).1
    by_contra hlt
    have hmul : (len + 1) * p ≤ (touched p buf len - 1) * p :=
      Nat.mul_le_mul_right p (by omega)
    have hlen : len ≤ len * p := Nat.le_mul_of_pos_right len hp
    rw [Nat.succ_mul] at hmul
    omega

theorem touched_pos {buf : ℕ} : 0 < touched p buf len := by
  unfold touched
  split_ifs
  · exact Nat.one_pos
  · exact Nat.succ_pos _

end PageCut
