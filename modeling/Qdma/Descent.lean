/-
# Work that runs out

Some steps of a system get something done, the others are idle.  `Law` gives every state an amount
of work to go, which a step that gets something done lowers and an idle one does not raise, and
asks that something can be done in every state that is not final.

`worked_le`: a run gets something done in as many steps as there is work to go, at most.
`final_of_stuck`: where nothing more can be done, the state is final.  `reach`: a final state can
always be reached.
-/
import Qdma.Exec

namespace Descent

open Exec

variable {σ ε : Type*}

/-- **What makes work run out.** -/
structure Law (step : σ → ε → σ) (ok works : σ → ε → Prop) (inv final : σ → Prop)
    (toGo : σ → ℕ) : Prop where
  keeps : ∀ s e, inv s → ok s e → inv (step s e)
  lowers : ∀ s e, inv s → ok s e → works s e → toGo (step s e) < toGo s
  idle : ∀ s e, inv s → ok s e → ¬ works s e → toGo (step s e) ≤ toGo s
  stuck : ∀ s, inv s → (∀ e, ok s e → ¬ works s e) → final s

/-- The number of steps along `evs` that get something done. -/
def worked (step : σ → ε → σ) (works : σ → ε → Prop) [∀ s e, Decidable (works s e)] :
    σ → List ε → ℕ
  | _, [] => 0
  | s, e :: evs => (if works s e then 1 else 0) + worked step works (step s e) evs

variable {step : σ → ε → σ} {ok works : σ → ε → Prop} {inv final : σ → Prop} {toGo : σ → ℕ}

theorem worked_append [∀ s e, Decidable (works s e)] (s : σ) (evs evs' : List ε) :
    worked step works s (evs ++ evs')
      = worked step works s evs + worked step works (evs.foldl step s) evs' := by
  induction evs generalizing s with
  | nil => exact (Nat.zero_add _).symm
  | cons e evs ih => rw [List.cons_append, worked, worked, ih, Nat.add_assoc]; rfl

theorem Law.inv_run (h : Law step ok works inv final toGo) {s s' : σ} {evs : List ε} (hs : inv s)
    (hrun : Run step ok s evs s') : inv s' :=
  hrun.invariant hs h.keeps

/-- **Every run** gets something done in so many steps at most. -/
theorem Law.worked_le [∀ s e, Decidable (works s e)] (h : Law step ok works inv final toGo)
    {s s' : σ} {evs : List ε} (hs : inv s) (hrun : Run step ok s evs s') :
    worked step works s evs + toGo s' ≤ toGo s := by
  induction hrun with
  | nil => exact Nat.le_of_eq (Nat.zero_add _)
  | @snoc evs s' e hrun hok ih =>
      have hinv := h.inv_run hs hrun
      rw [worked_append, ← hrun.eq_foldl, worked, worked, Nat.add_zero]
      by_cases hw : works s' e
      · have hlt := h.lowers s' e hinv hok hw
        rw [if_pos hw]
        omega
      · have hle := h.idle s' e hinv hok hw
        rw [if_neg hw]
        omega

/-- **A run that has come to where nothing can be done** has come to a final state. -/
theorem Law.final_of_stuck (h : Law step ok works inv final toGo) {s s' : σ} {evs : List ε}
    (hs : inv s) (hrun : Run step ok s evs s') (hstuck : ∀ e, ok s' e → ¬ works s' e) :
    final s' :=
  h.stuck s' (h.inv_run hs hrun) hstuck

/-- **A final state can be reached** by steps that each get something done. -/
theorem Law.reach (h : Law step ok works inv final toGo) {s : σ} (hs : inv s) :
    ∃ evs s', Run step ok s evs s' ∧ evs.length ≤ toGo s ∧ final s' := by
  induction hn : toGo s using Nat.strongRecOn generalizing s with
  | ind n ih =>
    by_cases hstuck : ∀ e, ok s e → ¬ works s e
    · exact ⟨[], s, Run.nil, Nat.zero_le _, h.stuck s hs hstuck⟩
    · push Not at hstuck
      obtain ⟨e, hok, hw⟩ := hstuck
      have hlt := h.lowers s e hs hok hw
      obtain ⟨evs, s', hrun, hlen, hfin⟩ := ih _ (hn ▸ hlt) (h.keeps s e hs hok) rfl
      refine ⟨[e] ++ evs, s', (Run.one hok).append hrun, ?_, hfin⟩
      rw [List.length_append, List.length_singleton]
      omega

end Descent
