/-
# Scanning a mask

A program comes to the bits of a mask by shifting it to the right, bit after bit, until nothing is
left.  A second mask, shifted to the left, has the one bit that the first has come to, and a count
says how many it has found.

`scan_eq` says what that comes to: the ranks of those bits of the mask that are set in a word.  If
the names of the bits lie in a table, by their ranks, `map_picked_eq_iff` says when the right ones
are read.
-/
import Mathlib.Data.List.Nodup
import Mathlib.Data.List.Range
import Mathlib.Tactic.Common

namespace MaskScan

variable {w : ℕ}

/-- The bits of a word, upwards from bit `j` on. -/
def bitsFrom (m : BitVec w) (j : ℕ) : List ℕ := (List.range' j (w - j)).filter fun b => m.getLsbD b

/-- The bits of a word, upwards. -/
def bits (m : BitVec w) : List ℕ := bitsFrom m 0

theorem mem_bits {m : BitVec w} {b : ℕ} : b ∈ bits m ↔ m.getLsbD b = true := by
  unfold bits bitsFrom
  rw [List.mem_filter, List.mem_range'_1]
  refine ⟨fun h => h.2, fun h => ⟨⟨Nat.zero_le b, ?_⟩, h⟩⟩
  have hlt := BitVec.lt_of_getLsbD h
  omega

theorem bitsFrom_succ (m : BitVec w) {j : ℕ} (hj : j < w) :
    bitsFrom m j = (if m.getLsbD j = true then [j] else []) ++ bitsFrom m (j + 1) := by
  unfold bitsFrom
  rw [show w - j = (w - (j + 1)) + 1 by omega, List.range'_succ, List.filter_cons]
  split_ifs <;> rfl

/-- Nothing is left when all has been shifted out. -/
theorem bitsFrom_eq_nil {m : BitVec w} {j : ℕ} (h : m >>> j = 0#w) : bitsFrom m j = [] := by
  refine List.filter_eq_nil_iff.mpr (fun b hb => ?_)
  obtain ⟨hle, -⟩ := List.mem_range'_1.mp hb
  have hbit := congrArg (fun v => BitVec.getLsbD v (b - j)) h
  rw [BitVec.getLsbD_ushiftRight, BitVec.getLsbD_zero, Nat.add_sub_cancel' hle] at hbit
  rw [hbit]
  exact Bool.false_ne_true

/-- **Two words have no bit in common** if none of the one is set in the other. -/
theorem and_eq_zero_iff {s m : BitVec w} : s &&& m = 0#w ↔ ∀ b ∈ bits m, s.getLsbD b = false := by
  constructor
  · intro h b hb
    have hbit := congrArg (fun v => BitVec.getLsbD v b) h
    rw [BitVec.getLsbD_and, mem_bits.mp hb, Bool.and_true, BitVec.getLsbD_zero] at hbit
    exact hbit
  · intro h
    refine BitVec.eq_of_getLsbD_eq (fun b _ => ?_)
    rw [BitVec.getLsbD_and, BitVec.getLsbD_zero]
    cases hm : m.getLsbD b with
    | false => exact Bool.and_false _
    | true => rw [h b (mem_bits.mpr hm), Bool.false_and]

theorem bits_shiftLeft_one {j : ℕ} (hj : j < w) : bits (1#w <<< j) = [j] := by
  have hmem : ∀ b, b ∈ bits (1#w <<< j) ↔ b = j := by
    intro b
    rw [mem_bits, BitVec.getLsbD_shiftLeft, BitVec.getLsbD_one]
    simp only [Bool.and_eq_true, decide_eq_true_eq, Bool.not_eq_true', decide_eq_false_iff_not]
    omega
  have hnodup : (bits (1#w <<< j)).Nodup := List.Nodup.filter _ List.nodup_range'
  exact List.perm_singleton.mp
    ((List.perm_ext_iff_of_nodup hnodup (List.nodup_singleton j)).mpr
      (fun b => (hmem b).trans List.mem_singleton.symm))

/-- The test with the second mask. -/
theorem and_shiftLeft_one {s : BitVec w} {j : ℕ} (hj : j < w) :
    s &&& 1#w <<< j ≠ 0#w ↔ s.getLsbD j = true := by
  rw [Ne, and_eq_zero_iff, bits_shiftLeft_one hj, List.forall_mem_singleton, Bool.not_eq_false]

/-- The test with the first. -/
theorem shiftRight_and_one {m : BitVec w} {j : ℕ} (hj : j < w) :
    m >>> j &&& 1#w ≠ 0#w ↔ m.getLsbD j = true := by
  have h := and_shiftLeft_one (s := m >>> j) (Nat.zero_lt_of_lt hj)
  rw [BitVec.shiftLeft_zero, BitVec.getLsbD_ushiftRight, Nat.add_zero] at h
  exact h

/-! ## The scan -/

/-- The ranks, from `k` on, of the bits of a list that a word has. -/
def picked (s : BitVec w) (l : List ℕ) (k : ℕ) : List ℕ :=
  ((l.zipIdx k).filter fun p => s.getLsbD p.1).map Prod.snd

/-- The scan, with the two masks and the count. -/
def scan (s : BitVec w) : ℕ → BitVec w → BitVec w → ℕ → List ℕ
  | 0, _, _, _ => []
  | n + 1, m, c, k =>
      if m = 0#w then []
      else
        (if m &&& 1#w ≠ 0#w ∧ s &&& c ≠ 0#w then [k] else []) ++
          scan s n (m >>> 1) (c <<< 1) (if m &&& 1#w ≠ 0#w then k + 1 else k)

/-- **What the scan finds**, once it has come to bit `j`. -/
theorem scan_eq (s m : BitVec w) {n j : ℕ} (hn : w ≤ j + n) (k : ℕ) :
    scan s n (m >>> j) (1#w <<< j) k = picked s (bitsFrom m j) k := by
  induction n generalizing j k with
  | zero =>
      have hnil : bitsFrom m j = [] := by
        unfold bitsFrom
        rw [show w - j = 0 by omega]
        rfl
      rw [hnil]
      rfl
  | succ n ih =>
      rw [scan]
      by_cases hzero : m >>> j = 0#w
      · rw [if_pos hzero, bitsFrom_eq_nil hzero]
        rfl
      have hj : j < w := by
        by_contra hge
        exact hzero (BitVec.ushiftRight_eq_zero (Nat.le_of_not_lt hge))
      rw [if_neg hzero, ← BitVec.shiftRight_add, ← BitVec.shiftLeft_add,
        ih (by omega : w ≤ j + 1 + n), bitsFrom_succ m hj]
      simp only [shiftRight_and_one hj, and_shiftLeft_one hj]
      cases hm : m.getLsbD j with
      | false => rfl
      | true =>
          cases hs : s.getLsbD j with
          | false =>
              unfold picked
              simp [hs]
          | true =>
              unfold picked
              simp [hs]

/-- The whole of it, with as many steps as the word has bits, or more. -/
theorem scan_bits (s m : BitVec w) {n : ℕ} (hn : w ≤ n) :
    scan s n m 1#w 0 = picked s (bits m) 0 := by
  have h := scan_eq s m (j := 0) (by omega : w ≤ 0 + n) 0
  rw [BitVec.ushiftRight_zero, BitVec.shiftLeft_zero] at h
  exact h

/-! ## Names by rank -/

theorem lt_of_mem_picked {s : BitVec w} {l : List ℕ} {k : ℕ} (h : k ∈ picked s l 0) :
    k < l.length := by
  obtain ⟨p, hp, rfl⟩ := List.mem_map.mp h
  have hlt := (List.mem_zipIdx (List.mem_of_mem_filter hp)).2.1
  omega

variable {α : Type*}

/-- **The names read by rank are those of the bits** exactly if that is so for each bit that is
set. -/
theorem map_picked_eq_iff {s : BitVec w} {l : List ℕ} {f g : ℕ → α} :
    (picked s l 0).map f = (l.filter fun b => s.getLsbD b).map g ↔
      ∀ p ∈ l.zipIdx, s.getLsbD p.1 = true → f p.2 = g p.1 := by
  have hright : (l.filter fun b => s.getLsbD b).map g =
      ((l.zipIdx).filter fun p => s.getLsbD p.1).map fun p => g p.1 := by
    conv_lhs => rw [← List.zipIdx_map_fst 0 l]
    rw [List.filter_map, List.map_map]
    rfl
  unfold picked
  rw [hright, List.map_map, List.map_inj_left]
  simp only [List.mem_filter, and_imp, Function.comp_apply]

theorem length_picked (s : BitVec w) (l : List ℕ) :
    (picked s l 0).length = (l.filter fun b => s.getLsbD b).length := by
  unfold picked
  conv_rhs => rw [← List.zipIdx_map_fst 0 l]
  rw [List.filter_map, List.length_map, List.length_map]
  rfl

/-- Pieces of the same lengths join to the same list only if they are the same. -/
theorem flatMap_eq_iff {β : Type*} {l : List α} {f g : α → List β}
    (hlen : ∀ a ∈ l, (f a).length = (g a).length) :
    l.flatMap f = l.flatMap g ↔ ∀ a ∈ l, f a = g a := by
  induction l with
  | nil => exact iff_of_true rfl (fun a ha => absurd ha List.not_mem_nil)
  | cons a l ih =>
      obtain ⟨ha, hl⟩ := List.forall_mem_cons.mp hlen
      rw [List.flatMap_cons, List.flatMap_cons, List.forall_mem_cons, ← ih hl]
      exact ⟨fun h => List.append_inj h ha, fun h => by rw [h.1, h.2]⟩

end MaskScan
