/-
# Sweeps

A program visits the elements of a list one after the other.  A visit may be refused, in which case
the element has not been touched; it may fail; and behind either the sweep stops.

A program may go through one list where another is meant.  `covers_of_refused` and `not_covers` say
when that goes well: what it has visited is the beginning of the other if an element is refused
before the two have parted, and only then.
-/
import Mathlib.Data.List.Basic
import Mathlib.Data.List.Infix
import Mathlib.Tactic.Common

namespace Sweep

/-- What has become of a visit. -/
inductive Fate where
  | refused
  | failed
  | passed
deriving DecidableEq

/-- The state behind a sweep, the elements that have been touched, and whether it has stopped. -/
structure Result (S Q : Type*) where
  state : S
  done : List Q
  stopped : Bool

section

variable {S Q : Type*} (visit : S → Q → S × Fate)

/-- One element after the other. -/
def sweep (s : S) : List Q → Result S Q
  | [] => { state := s, done := [], stopped := false }
  | q :: qs =>
      match visit s q with
      | (s, .refused) => { state := s, done := [], stopped := true }
      | (s, .failed) => { state := s, done := [q], stopped := true }
      | (s, .passed) =>
          let r := sweep s qs
          { r with done := q :: r.done }

variable {visit} {s : S} {l l' : List Q}

theorem sweep_refused {q : Q} (h : (visit s q).2 = .refused) :
    sweep visit s (q :: l) = { state := (visit s q).1, done := [], stopped := true } := by
  rw [sweep]
  generalize visit s q = r at h
  obtain ⟨s', v⟩ := r
  replace h : v = _ := h
  rw [h]

theorem sweep_failed {q : Q} (h : (visit s q).2 = .failed) :
    sweep visit s (q :: l) = { state := (visit s q).1, done := [q], stopped := true } := by
  rw [sweep]
  generalize visit s q = r at h
  obtain ⟨s', v⟩ := r
  replace h : v = _ := h
  rw [h]

theorem sweep_passed {q : Q} (h : (visit s q).2 = .passed) :
    sweep visit s (q :: l) =
      { sweep visit (visit s q).1 l with done := q :: (sweep visit (visit s q).1 l).done } := by
  rw [sweep]
  generalize visit s q = r at h
  obtain ⟨s', v⟩ := r
  replace h : v = _ := h
  rw [h]

/-- What has been touched is the beginning, -/
theorem done_begins (s : S) (l : List Q) : (sweep visit s l).done <+: l := by
  induction l generalizing s with
  | nil => exact List.prefix_rfl
  | cons q l ih =>
      cases hv : (visit s q).2 with
      | refused =>
          rw [sweep_refused hv]
          exact List.nil_prefix
      | failed =>
          rw [sweep_failed hv]
          exact (List.prefix_cons_inj q).mpr List.nil_prefix
      | passed =>
          rw [sweep_passed hv]
          exact (List.prefix_cons_inj q).mpr (ih _)

/-- and all of it if the sweep has not stopped. -/
theorem done_eq {s : S} {l : List Q} (h : (sweep visit s l).stopped = false) :
    (sweep visit s l).done = l := by
  induction l generalizing s with
  | nil => rfl
  | cons q l ih =>
      cases hv : (visit s q).2 with
      | refused =>
          rw [sweep_refused hv] at h
          exact Bool.noConfusion h
      | failed =>
          rw [sweep_failed hv] at h
          exact Bool.noConfusion h
      | passed =>
          rw [sweep_passed hv] at h ⊢
          exact congrArg (q :: ·) (ih h)

/-- A sweep that has stopped is not resumed. -/
theorem sweep_append_stopped {s : S} {l : List Q} (h : (sweep visit s l).stopped = true)
    (l' : List Q) : sweep visit s (l ++ l') = sweep visit s l := by
  induction l generalizing s with
  | nil => exact Bool.noConfusion h
  | cons q l ih =>
      rw [List.cons_append]
      cases hv : (visit s q).2 with
      | refused => rw [sweep_refused hv, sweep_refused hv]
      | failed => rw [sweep_failed hv, sweep_failed hv]
      | passed =>
          rw [sweep_passed hv] at h
          rw [sweep_passed hv, sweep_passed hv, ih h]

/-- One that has not goes on where it is. -/
theorem sweep_append {s : S} {l : List Q} (h : (sweep visit s l).stopped = false) (l' : List Q) :
    sweep visit s (l ++ l') =
      { sweep visit (sweep visit s l).state l' with
        done := l ++ (sweep visit (sweep visit s l).state l').done } := by
  induction l generalizing s with
  | nil => rfl
  | cons q l ih =>
      rw [List.cons_append]
      cases hv : (visit s q).2 with
      | refused =>
          rw [sweep_refused hv] at h
          exact Bool.noConfusion h
      | failed =>
          rw [sweep_failed hv] at h
          exact Bool.noConfusion h
      | passed =>
          rw [sweep_passed hv] at h
          rw [sweep_passed hv, sweep_passed hv, ih h]
          rfl

/-- **The rule for invariants**: what every visit keeps, the sweep keeps. -/
theorem sweep_keeps {K : S → Prop} (hvisit : ∀ s, ∀ q ∈ l, K s → K (visit s q).1) (hs : K s) :
    K (sweep visit s l).state := by
  induction l generalizing s with
  | nil => exact hs
  | cons q l ih =>
      have hq := hvisit s q List.mem_cons_self hs
      cases hv : (visit s q).2 with
      | refused =>
          rw [sweep_refused hv]
          exact hq
      | failed =>
          rw [sweep_failed hv]
          exact hq
      | passed =>
          rw [sweep_passed hv]
          exact ih (fun s q hmem => hvisit s q (List.mem_cons_of_mem _ hmem)) hq

/-! ## One list for another -/

/-- **What is meant** by a sweep over `named`: nothing else is touched, and everything unless it has
stopped. -/
structure Result.Covers (named : List Q) (r : Result S Q) : Prop where
  order : r.done <+: named
  all : r.stopped = false → r.done = named

/-- It is what a sweep over `named` does. -/
theorem covers_self (s : S) (l : List Q) : (sweep visit s l).Covers l :=
  ⟨done_begins s l, done_eq⟩

/-- It stops in time if an element is refused. -/
theorem covers_of_refused {pre post named : List Q} {q : Q} (hpre : pre <+: named)
    (hq : (sweep visit s pre).stopped = false →
      (visit (sweep visit s pre).state q).2 = .refused) :
    (sweep visit s (pre ++ q :: post)).Covers named := by
  cases hstop : (sweep visit s pre).stopped with
  | true =>
      rw [sweep_append_stopped hstop]
      exact ⟨(done_begins s pre).trans hpre, fun h => absurd (hstop.symm.trans h) (by decide)⟩
  | false =>
      rw [sweep_append hstop, sweep_refused (hq hstop), List.append_nil]
      exact ⟨hpre, fun h => Bool.noConfusion h⟩

variable [DecidableEq Q]

/-- How far two lists are the same. -/
def agree : List Q → List Q → ℕ
  | a :: as, b :: bs => if a = b then agree as bs + 1 else 0
  | _, _ => 0

/-- There they part. -/
theorem prefix_of_take_agree (h : l.take (agree l l' + 1) <+: l') : l <+: l' := by
  induction l generalizing l' with
  | nil => exact List.nil_prefix
  | cons a as ih =>
      rw [List.take_succ_cons] at h
      cases l' with
      | nil => exact absurd (List.prefix_nil.mp h) (List.cons_ne_nil _ _)
      | cons b bs =>
          obtain ⟨rfl, htail⟩ := List.cons_prefix_cons.mp h
          rw [agree, if_pos rfl] at htail
          exact (List.prefix_cons_inj a).mpr (ih htail)

theorem agree_of_begins (h : l <+: l') : agree l l' = l.length := by
  induction l generalizing l' with
  | nil => rw [agree, List.length_nil]; exact nofun
  | cons a as ih =>
      cases l' with
      | nil => exact absurd (List.prefix_nil.mp h) (List.cons_ne_nil _ _)
      | cons b bs =>
          obtain ⟨rfl, htail⟩ := List.cons_prefix_cons.mp h
          rw [agree, if_pos rfl, ih htail, List.length_cons]

/-- **In time**: before the lists part, or right there, an element is refused. -/
theorem exists_before {P : Q → Prop} (h : ∃ q ∈ l.take (agree l l' + 1), P q) :
    ∃ pre q post, l = pre ++ q :: post ∧ pre <+: l' ∧ P q := by
  induction l generalizing l' with
  | nil =>
      obtain ⟨q, hq, -⟩ := h
      exact absurd hq List.not_mem_nil
  | cons a as ih =>
      obtain ⟨q, hq, hP⟩ := h
      rw [List.take_succ_cons] at hq
      rcases List.mem_cons.mp hq with rfl | hmem
      · exact ⟨[], q, as, rfl, List.nil_prefix, hP⟩
      · cases l' with
        | nil => exact absurd hmem List.not_mem_nil
        | cons b bs =>
            rw [agree] at hmem
            split_ifs at hmem with hab
            · obtain ⟨pre, q', post, rfl, hpre, hq'⟩ := ih ⟨q, hmem, hP⟩
              refine ⟨a :: pre, q', post, rfl, ?_, hq'⟩
              rw [hab]
              exact (List.prefix_cons_inj b).mpr hpre
            · exact absurd hmem List.not_mem_nil

/-- A sweep that does not stop in time goes wrong. -/
theorem not_covers {named : List Q} (hne : l ≠ named)
    (hpass : (sweep visit s (l.take (agree l named + 1))).stopped = false) :
    ¬ (sweep visit s l).Covers named := by
  intro h
  have hsplit := List.take_append_drop (agree l named + 1) l
  have hrun := sweep_append hpass (l.drop (agree l named + 1))
  rw [hsplit] at hrun
  have htake : l.take (agree l named + 1) <+: (sweep visit s l).done := by
    rw [hrun]
    exact List.prefix_append _ _
  -- so the lists do not part, and the one it goes through comes to its end
  have hprefix := prefix_of_take_agree (htake.trans h.order)
  rw [agree_of_begins hprefix, List.take_of_length_le (Nat.le_succ _)] at hpass
  exact hne ((done_eq hpass).symm.trans (h.all hpass))

end

end Sweep
