/-
# Text written into a buffer

A program writes text into a buffer, piece by piece, at a cursor: with a writer that knows no bound,
with one that cuts off what does not fit and leaves the cursor behind what is there, or character by
character.  What has been written of the buffer is kept as its highest byte, terminators included.

`run_iff`: a run stays in the buffer just when everything before the last unbounded piece fits.
`snprintfs_spec` is about pieces that are counted in full and given up when they do not fit.
-/
import Mathlib.Data.List.Basic
import Mathlib.Algebra.BigOperators.Group.List.Basic
import Mathlib.Algebra.Ring.Nat
import Mathlib.Order.MinMax
import Mathlib.Tactic.Common

namespace TextOut

/-! ## Writers -/

/-- What has been written: the cursor, the text, and the bytes from the start of the buffer on. -/
structure Out where
  pos : ℕ := 0
  text : List Char := []
  high : ℕ := 0

/-- Text and a terminator, whatever the size of the buffer. -/
def Out.print (o : Out) (s : List Char) : Out :=
  { pos := o.pos + s.length
    text := o.text ++ s
    high := max o.high (o.pos + s.length + 1) }

/-- A character, in the place of the terminator. -/
def Out.put (o : Out) (c : Char) : Out :=
  { pos := o.pos + 1
    text := o.text ++ [c]
    high := max o.high (o.pos + 1) }

/-- As much of a text as fits with its terminator; behind the end nothing. -/
def Out.cut (size : ℕ) (o : Out) (s : List Char) : Out :=
  if size ≤ o.pos then o else o.print (s.take (size - o.pos - 1))

/-- The text is given up: a terminator at the start. -/
def Out.restart (o : Out) : Out := { pos := 0, text := [], high := max o.high 1 }

/-- A piece of a text, by its writer. -/
inductive Item where
  | print (s : List Char)
  | cut (s : List Char)
  | put (c : Char)

/-- The piece in full. -/
def Item.text : Item → List Char
  | .print s => s
  | .cut s => s
  | .put c => [c]

/-- A piece is written. -/
def Out.step (size : ℕ) (o : Out) : Item → Out
  | .print s => o.print s
  | .cut s => o.cut size s
  | .put c => o.put c

/-- Pieces, one after the other. -/
def Out.run (size : ℕ) (o : Out) (items : List Item) : Out := items.foldl (Out.step size) o

/-- The pieces in full. -/
def texts (items : List Item) : List Char := items.flatMap Item.text

/-- Pieces that are counted in full; when one does not fit, the text is given up. -/
def snprintfs (size : ℕ) : List (List Char) → Out → Out × ℕ
  | [], o => (o, o.pos)
  | s :: ss, o =>
      if o.pos + s.length ≥ size then ((o.cut size s).restart, o.pos + s.length)
      else snprintfs size ss (o.cut size s)

/-! ## Runs -/

section Run

variable {size : ℕ} {o : Out}

@[simp] theorem run_cons (size : ℕ) (o : Out) (i : Item) (items : List Item) :
    o.run size (i :: items) = (o.step size i).run size items := rfl

theorem run_append (size : ℕ) (o : Out) (items items' : List Item) :
    o.run size (items ++ items') = (o.run size items).run size items' := List.foldl_append

@[simp] theorem texts_nil : texts [] = [] := rfl

@[simp] theorem texts_cons (i : Item) (items : List Item) :
    texts (i :: items) = i.text ++ texts items := List.flatMap_cons

theorem texts_append (items items' : List Item) :
    texts (items ++ items') = texts items ++ texts items' := List.flatMap_append

/-- The length of a text that is made of equal parts. -/
theorem length_texts_flatMap {α : Type*} {f : α → List Item} {len : α → ℕ}
    (h : ∀ a, (texts (f a)).length = len a) (l : List α) :
    (texts (l.flatMap f)).length = (l.map len).sum := by
  induction l with
  | nil => rfl
  | cons a l ih =>
      rw [List.flatMap_cons, texts_append, List.length_append, h, ih]
      rfl

theorem texts_prints (lines : List (List Char)) : texts (lines.map .print) = lines.flatten := by
  induction lines with
  | nil => rfl
  | cons s lines ih =>
      rw [List.map_cons, texts_cons, ih]
      rfl

/-- The text ends at the cursor. -/
def Out.Level (o : Out) : Prop := o.pos = o.text.length

theorem Out.Level.print (h : o.Level) (s : List Char) : (o.print s).Level := by
  show o.pos + s.length = (o.text ++ s).length
  rw [List.length_append, h]

theorem Out.Level.step (h : o.Level) (i : Item) : (o.step size i).Level := by
  cases i with
  | print s => exact h.print s
  | cut s =>
      show (o.cut size s).Level
      unfold Out.cut
      split_ifs
      · exact h
      · exact h.print _
  | put c =>
      show o.pos + 1 = (o.text ++ [c]).length
      rw [List.length_append, h]
      rfl

theorem Out.Level.run (h : o.Level) (items : List Item) : (o.run size items).Level := by
  induction items generalizing o with
  | nil => exact h
  | cons i items ih => exact ih (h.step i)

/-- What has been written stays written. -/
theorem step_high (size : ℕ) (o : Out) (i : Item) : o.high ≤ (o.step size i).high := by
  cases i with
  | print s => exact le_max_left _ _
  | cut s =>
      show o.high ≤ (o.cut size s).high
      unfold Out.cut
      split_ifs
      · exact le_refl _
      · exact le_max_left _ _
  | put c => exact le_max_left _ _

theorem run_high (size : ℕ) (o : Out) (items : List Item) : o.high ≤ (o.run size items).high := by
  induction items generalizing o with
  | nil => exact le_refl _
  | cons i items ih => exact (step_high size o i).trans (ih _)

/-- A text gets no shorter. -/
theorem step_text_length (size : ℕ) (o : Out) (i : Item) :
    o.text.length ≤ (o.step size i).text.length := by
  have happend : ∀ t : List Char, o.text.length ≤ (o.text ++ t).length := fun t => by
    rw [List.length_append]
    exact Nat.le_add_right _ _
  cases i with
  | print s => exact happend s
  | cut s =>
      show o.text.length ≤ (o.cut size s).text.length
      unfold Out.cut
      split_ifs
      · exact le_refl _
      · exact happend _
  | put c => exact happend [c]

theorem run_text_length (size : ℕ) (o : Out) (items : List Item) :
    o.text.length ≤ (o.run size items).text.length := by
  induction items generalizing o with
  | nil => exact le_refl _
  | cons i items ih => exact (step_text_length size o i).trans (ih _)

/-- A piece that fits is there in full. -/
theorem step_fits (i : Item) (hhigh : o.high ≤ size) (hfit : o.pos + i.text.length + 1 ≤ size) :
    (o.step size i).pos = o.pos + i.text.length ∧ (o.step size i).text = o.text ++ i.text ∧
      (o.step size i).high ≤ size := by
  cases i with
  | print s => exact ⟨rfl, rfl, max_le hhigh hfit⟩
  | cut s =>
      replace hfit : o.pos + s.length + 1 ≤ size := hfit
      have htake : s.take (size - o.pos - 1) = s := List.take_of_length_le (by omega)
      have hcut : o.step size (.cut s) = o.print s := by
        show o.cut size s = o.print s
        unfold Out.cut
        rw [if_neg (by omega), htake]
      rw [hcut]
      exact ⟨rfl, rfl, max_le hhigh hfit⟩
  | put c => exact ⟨rfl, rfl, max_le hhigh (Nat.le_of_succ_le hfit)⟩

theorem run_fits (items : List Item) (hhigh : o.high ≤ size)
    (hfit : o.pos + (texts items).length + 1 ≤ size) :
    (o.run size items).pos = o.pos + (texts items).length ∧
      (o.run size items).text = o.text ++ texts items ∧ (o.run size items).high ≤ size := by
  induction items generalizing o with
  | nil => exact ⟨rfl, (List.append_nil _).symm, hhigh⟩
  | cons i items ih =>
      rw [texts_cons, List.length_append] at hfit ⊢
      obtain ⟨hpos, htext, hhigh'⟩ := step_fits i hhigh (by omega)
      obtain ⟨hpos', htext', hhigh''⟩ := ih hhigh' (by rw [hpos]; omega)
      refine ⟨?_, ?_, hhigh''⟩
      · rw [run_cons, hpos', hpos, Nat.add_assoc]
      · rw [run_cons, htext', htext, List.append_assoc]

/-- A piece that has been cut off leaves no room for another. -/
theorem cut_complete {s : List Char} (h : (o.cut size s).pos + 1 < size) :
    (o.cut size s).pos = o.pos + s.length ∧ (o.cut size s).text = o.text ++ s := by
  unfold Out.cut at h ⊢
  split_ifs at h ⊢
  · omega
  · have hlen : (o.print (s.take (size - o.pos - 1))).pos =
        o.pos + (s.take (size - o.pos - 1)).length := rfl
    rw [hlen, List.length_take] at h
    rw [List.take_of_length_le (by omega)]
    exact ⟨rfl, rfl⟩

/-- **In front of a piece that fits, everything is there in full.** -/
theorem run_complete {pre rest : List Item} {s : List Char} (hs : s ≠ [])
    (h : (o.run size (pre ++ .print s :: rest)).high ≤ size) :
    (o.run size pre).pos = o.pos + (texts pre).length ∧
      o.pos + (texts pre).length + s.length + 1 ≤ size := by
  have hlen : 0 < s.length := List.length_pos_of_ne_nil hs
  induction pre generalizing o with
  | nil =>
      refine ⟨rfl, ?_⟩
      have hprint : (o.print s).high ≤ size := (run_high size _ rest).trans h
      exact (le_max_right _ _).trans hprint
  | cons i pre ih =>
      obtain ⟨hpos, hfit⟩ := ih h
      have hstep : (o.step size i).pos = o.pos + i.text.length := by
        cases i with
        | print t => rfl
        | cut t => exact (cut_complete (show (o.cut size t).pos + 1 < size by
            have hcut : (o.step size (.cut t)).pos = (o.cut size t).pos := rfl
            omega)).1
        | put c => rfl
      rw [texts_cons, List.length_append, run_cons, hpos, hstep]
      rw [hstep] at hfit
      omega

/-- **When a run stays in the buffer** that ends with a piece that is not bounded. -/
theorem run_print_iff {pre : List Item} {s : List Char} (hs : s ≠ []) (hhigh : o.high ≤ size) :
    (o.run size (pre ++ [.print s])).high ≤ size ↔
      o.pos + (texts pre).length + s.length + 1 ≤ size := by
  refine ⟨fun h => (run_complete hs h).2, fun h => ?_⟩
  refine (run_fits _ hhigh ?_).2.2
  rw [texts_append, List.length_append]
  show o.pos + (_ + (s ++ []).length) + 1 ≤ size
  rw [List.append_nil]
  omega

/-- Lines are one piece. -/
theorem prints_iff {lines : List (List Char)} (hne : lines ≠ []) (hlines : ∀ s ∈ lines, s ≠ [])
    (hhigh : o.high ≤ size) :
    (o.run size (lines.map .print)).high ≤ size ↔ o.pos + lines.flatten.length + 1 ≤ size := by
  have hlast := hlines _ (List.getLast_mem hne)
  rw [← List.dropLast_append_getLast hne, List.map_append, List.map_singleton,
    run_print_iff hlast hhigh, texts_prints, List.flatten_append, List.length_append,
    List.flatten_singleton, Nat.add_assoc o.pos]

/-- **When a run stays in the buffer** that ends with such a piece, one that is cut off and a
character. -/
theorem run_iff {pre : List Item} {s t : List Char} {c : Char} (hs : s ≠ [])
    (hhigh : o.high ≤ size) :
    (o.run size (pre ++ [.print s, .cut t, .put c])).high ≤ size ↔
      o.pos + (texts pre).length + s.length + 1 ≤ size := by
  refine ⟨fun h => (run_complete hs h).2, fun h => ?_⟩
  obtain ⟨hpos, -, hhigh'⟩ := @run_fits size o (pre ++ [.print s]) hhigh (by
    rw [texts_append, List.length_append]
    show o.pos + (_ + (s ++ []).length) + 1 ≤ size
    rw [List.append_nil]
    omega)
  rw [texts_append, List.length_append] at hpos
  replace hpos : _ = o.pos + (_ + (s ++ []).length) := hpos
  rw [List.append_nil] at hpos
  have hsplit : pre ++ [.print s, .cut t, .put c] = (pre ++ [.print s]) ++ [.cut t, .put c] := by
    rw [List.append_assoc]
    rfl
  rw [hsplit, run_append]
  generalize o.run size (pre ++ [.print s]) = o' at hpos hhigh'
  have hcut : o'.cut size t = o'.print (t.take (size - o'.pos - 1)) := by
    unfold Out.cut
    rw [if_neg (by omega)]
  have hle : (o'.cut size t).pos + 1 ≤ size ∧ (o'.cut size t).high ≤ size := by
    rw [hcut]
    have hlen : (t.take (size - o'.pos - 1)).length ≤ size - o'.pos - 1 := List.length_take_le _ _
    have hend : o'.pos + (t.take (size - o'.pos - 1)).length + 1 ≤ size := by omega
    exact ⟨hend, max_le hhigh' hend⟩
  exact max_le hle.2 hle.1

/-- **Pieces that are counted in full** are all there, or the text is given up; either way the
buffer is not left. -/
theorem snprintfs_spec (ss : List (List Char)) (hpos : o.pos < size) (hhigh : o.high ≤ size) :
    (snprintfs size ss o).1.high ≤ size ∧
      (o.pos + ss.flatten.length < size →
        (snprintfs size ss o).1.pos = o.pos + ss.flatten.length ∧
          (snprintfs size ss o).1.text = o.text ++ ss.flatten ∧
          (snprintfs size ss o).2 = o.pos + ss.flatten.length) ∧
      (size ≤ o.pos + ss.flatten.length →
        (snprintfs size ss o).1.pos = 0 ∧ (snprintfs size ss o).1.text = [] ∧
          size ≤ (snprintfs size ss o).2) := by
  induction ss generalizing o with
  | nil =>
      refine ⟨hhigh, fun _ => ⟨rfl, (List.append_nil _).symm, rfl⟩, fun h => ?_⟩
      exact absurd h (Nat.not_le.mpr hpos)
  | cons s ss ih =>
      rw [List.flatten_cons, List.length_append, snprintfs]
      by_cases hs : o.pos + s.length ≥ size
      · rw [if_pos hs]
        have hcut : o.cut size s = o.print (s.take (size - o.pos - 1)) := by
          unfold Out.cut
          rw [if_neg (by omega)]
        have hlen : (s.take (size - o.pos - 1)).length ≤ size - o.pos - 1 := List.length_take_le _ _
        refine ⟨?_, fun h => absurd h (by omega), fun _ => ⟨rfl, rfl, hs⟩⟩
        rw [hcut]
        exact max_le (max_le hhigh (by omega)) (by omega)
      · rw [if_neg hs]
        obtain ⟨hp, ht, hh⟩ := @step_fits size o (.cut s) hhigh
          (show o.pos + s.length + 1 ≤ size by omega)
        replace hp : (o.cut size s).pos = o.pos + s.length := hp
        replace ht : (o.cut size s).text = o.text ++ s := ht
        obtain ⟨hhigh', hin, hout⟩ := ih (o := o.cut size s) (by omega) hh
        rw [hp] at hin hout
        refine ⟨hhigh', fun h => ?_, fun h => hout (by omega)⟩
        obtain ⟨h1, h2, h3⟩ := hin (by omega)
        refine ⟨by rw [h1, Nat.add_assoc], ?_, by rw [h3, Nat.add_assoc]⟩
        rw [h2, ht, List.append_assoc]

end Run

end TextOut
