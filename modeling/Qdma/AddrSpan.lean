/-
# Spans of addresses

A transfer is described by ranges `(address, length)` in a space of `m` addresses that wraps
around.  `spans m l` lists the addresses the ranges of `l` touch, byte by byte and in order, so
that "these ranges cover those, each byte once and in order" is an equation between two lists,
and "so far" is `<+:`.
-/
import Mathlib.Data.List.Basic
import Mathlib.Data.List.Infix
import Mathlib.Data.List.TakeDrop
import Mathlib.Algebra.Ring.Nat

namespace AddrSpan

/-- The addresses of `len` consecutive bytes from `a`. -/
def span (m a len : ℕ) : List ℕ := (List.range len).map (fun i => (a + i) % m)

/-- The addresses of a list of ranges. -/
def spans (m : ℕ) (l : List (ℕ × ℕ)) : List ℕ := l.flatMap (fun r => span m r.1 r.2)

/-- The bytes of a list of ranges. -/
def total (l : List (ℕ × ℕ)) : ℕ := (l.map Prod.snd).sum

@[simp] theorem length_span (m a len : ℕ) : (span m a len).length = len := by
  simp [span]

/-- Only the address modulo the size of the space matters. -/
@[simp] theorem span_mod (m a len : ℕ) : span m (a % m) len = span m a len := by
  simp [span]

theorem getElem?_span (m a : ℕ) {len i : ℕ} (h : i < len) :
    (span m a len)[i]? = some ((a + i) % m) := by
  simp [span, h]

/-- A range followed by its continuation is one range. -/
theorem span_append (m a k l : ℕ) : span m a k ++ span m (a + k) l = span m a (k + l) := by
  unfold span
  rw [List.range_add, List.map_append, List.map_map]
  congr 1
  apply List.map_congr_left
  intro i _
  rw [Function.comp_apply, Nat.add_assoc]

@[simp] theorem spans_cons (m : ℕ) (r : ℕ × ℕ) (l : List (ℕ × ℕ)) :
    spans m (r :: l) = span m r.1 r.2 ++ spans m l := rfl

@[simp] theorem spans_append (m : ℕ) (l l' : List (ℕ × ℕ)) :
    spans m (l ++ l') = spans m l ++ spans m l' := List.flatMap_append

@[simp] theorem length_spans (m : ℕ) (l : List (ℕ × ℕ)) : (spans m l).length = total l := by
  rw [spans, List.length_flatMap, total]
  simp

/-- The first ranges of a list touch the first of its addresses. -/
theorem spans_take (m : ℕ) (l : List (ℕ × ℕ)) (k : ℕ) :
    spans m (l.take k) <+: spans m l := by
  refine ⟨spans m (l.drop k), ?_⟩
  rw [← spans_append, List.take_append_drop]

/-- What follows a prefix that is a whole number of ranges may itself be cut short. -/
theorem prefix_append_spans {m : ℕ} {l : List (ℕ × ℕ)} {k : ℕ} {s t : List ℕ}
    (hs : s = spans m (l.take k)) (ht : t <+: spans m (l.drop k)) : s ++ t <+: spans m l := by
  rw [← List.take_append_drop k l, spans_append, hs, List.prefix_append_right_inj]
  exact ht

/-- **A cover that goes wrong stays wrong**: the address after a prefix is that of the list. -/
theorem head_of_prefix {m a len : ℕ} {s t w : List ℕ} (hlen : 0 < len)
    (h : s ++ span m a len ++ t <+: w) : w[s.length]? = some (a % m) := by
  obtain ⟨u, rfl⟩ := h
  rw [List.append_assoc, List.append_assoc, List.getElem?_append_right le_rfl, Nat.sub_self,
    List.getElem?_append_left (by rw [length_span]; exact hlen), getElem?_span m a hlen,
    Nat.add_zero]

/-- The address at a byte inside the range after the first `k`. -/
theorem getElem?_spans {m : ℕ} {l : List (ℕ × ℕ)} {k i : ℕ} {r : ℕ × ℕ} (hr : l[k]? = some r)
    (hi : i < r.2) : (spans m l)[total (l.take k) + i]? = some ((r.1 + i) % m) := by
  obtain ⟨hk, rfl⟩ := List.getElem?_eq_some_iff.mp hr
  have hsplit : spans m l
      = spans m (l.take k) ++ (span m l[k].1 l[k].2 ++ spans m (l.drop (k + 1))) := by
    rw [← spans_cons, ← List.drop_eq_getElem_cons hk, ← spans_append, List.take_append_drop]
  rw [hsplit, List.getElem?_append_right (by rw [length_spans]; omega), length_spans,
    Nat.add_sub_cancel_left, List.getElem?_append_left (by rw [length_span]; exact hi),
    getElem?_span m _ hi]

end AddrSpan
