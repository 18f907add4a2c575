/-
# Labelled runs of a transition system

A system is a step function `step : σ → ε → σ`; what its environment may do is a
predicate `ok s e`, "event `e` may happen in state `s`".  `Run step ok s₀ evs s`
says that the events `evs`, each admitted in the state it meets, lead from `s₀`
to `s`.

`Run.invariant` is the induction every safety result of the development goes
through, and `Run.of_admits` turns a decidable check of a concrete event list
into a run.
-/
import Mathlib.Data.List.Basic
import Mathlib.Data.List.Induction

namespace Exec

variable {σ ε : Type*}

/-- `evs` leads from `s₀` to `s`, every event being admitted where it happens. -/
inductive Run (step : σ → ε → σ) (ok : σ → ε → Prop) (s₀ : σ) : List ε → σ → Prop
  | nil : Run step ok s₀ [] s₀
  | snoc {evs : List ε} {s : σ} {e : ε} :
      Run step ok s₀ evs s → ok s e → Run step ok s₀ (evs ++ [e]) (step s e)

variable {step : σ → ε → σ} {ok : σ → ε → Prop} {s₀ s : σ} {evs : List ε}

/-- **The invariant rule.**  A property of the initial state kept by every admitted
step holds after every run. -/
theorem Run.invariant {I : σ → Prop} (h0 : I s₀) (hs : ∀ s e, I s → ok s e → I (step s e))
    (h : Run step ok s₀ evs s) : I s := by
  induction h with
  | nil => exact h0
  | snoc _ hok ih => exact hs _ _ ih hok

/-- A run whose events all have a property is a run under an admission that asks for it. -/
theorem Run.and {P : ε → Prop} (h : Run step ok s₀ evs s) (hp : ∀ e ∈ evs, P e) :
    Run step (fun s e => ok s e ∧ P e) s₀ evs s := by
  induction h with
  | nil => exact Run.nil
  | snoc _ hok ih =>
      refine Run.snoc (ih (fun e he => hp e (List.mem_append_left _ he))) ⟨hok, ?_⟩
      exact hp _ (List.mem_append_right _ (List.mem_singleton.mpr rfl))

/-- Runs compose. -/
theorem Run.append {evs' : List ε} {s' : σ} (h : Run step ok s₀ evs s)
    (h' : Run step ok s evs' s') : Run step ok s₀ (evs ++ evs') s' := by
  induction h' with
  | nil => rwa [List.append_nil]
  | snoc _ hok ih =>
      rw [← List.append_assoc]
      exact Run.snoc ih hok

/-- One admitted step is a run. -/
theorem Run.one {e : ε} (h : ok s e) : Run step ok s [e] (step s e) := Run.snoc Run.nil h

/-- A run ends where its events lead. -/
theorem Run.eq_foldl (h : Run step ok s₀ evs s) : s = evs.foldl step s₀ := by
  induction h with
  | nil => rfl
  | snoc _ _ ih => rw [List.foldl_append, ← ih, List.foldl_cons, List.foldl_nil]

/-- A run cut at an event: what comes before it is a run, and the event is admitted there. -/
theorem Run.cut (h : Run step ok s₀ evs s) {pre post : List ε} {e : ε}
    (heq : evs = pre ++ e :: post) :
    Run step ok s₀ pre (pre.foldl step s₀) ∧ ok (pre.foldl step s₀) e := by
  induction h generalizing post with
  | nil =>
      rw [eq_comm, List.append_eq_nil_iff] at heq
      exact absurd heq.2 (List.cons_ne_nil _ _)
  | snoc hrun hok ih =>
      rcases List.eq_nil_or_concat post with rfl | ⟨post, e', rfl⟩
      · obtain ⟨rfl, hlast⟩ := List.append_inj' heq rfl
        rw [List.singleton_inj] at hlast
        rw [← hrun.eq_foldl, ← hlast]
        exact ⟨hrun, hok⟩
      · rw [List.concat_eq_append, ← List.cons_append, ← List.append_assoc] at heq
        exact ih (List.append_inj' heq rfl).1

/-- Whether `evs` is admitted from `s`, event by event. -/
def admits (step : σ → ε → σ) (ok : σ → ε → Prop) [∀ s e, Decidable (ok s e)] :
    σ → List ε → Bool
  | _, [] => true
  | s, e :: evs => decide (ok s e) && admits step ok (step s e) evs

theorem Run.extend [∀ s e, Decidable (ok s e)] {pre : List ε} (h : Run step ok s₀ pre s)
    (hadm : admits step ok s evs = true) : Run step ok s₀ (pre ++ evs) (evs.foldl step s) := by
  induction evs generalizing pre s with
  | nil => simpa using h
  | cons e evs ih =>
      rw [admits, Bool.and_eq_true, decide_eq_true_eq] at hadm
      rw [List.append_cons, List.foldl_cons]
      exact ih (Run.snoc h hadm.1) hadm.2

/-- An event list that checks out is a run. -/
theorem Run.of_admits [∀ s e, Decidable (ok s e)] (evs : List ε)
    (hadm : admits step ok s evs = true) : Run step ok s evs (evs.foldl step s) := by
  simpa using Run.extend (@Run.nil σ ε step ok s) hadm

/-- The same, with the admission named. -/
theorem Run.under (ok : σ → ε → Prop) [∀ s e, Decidable (ok s e)] (evs : List ε)
    (hadm : admits step ok s evs = true) : Run step ok s evs (evs.foldl step s) :=
  Run.of_admits evs hadm

/-- Nothing happens along an empty list. -/
theorem along_nil {Q : σ → ε → Prop} :
    ∀ pre e post, [] = pre ++ e :: post → Q (pre.foldl step s₀) e := by
  intro pre e post heq
  exact absurd heq.symm (List.append_ne_nil_of_right_ne_nil pre (List.cons_ne_nil e post))

/-- What is true of all events of a list is so of the first, and of the others after it. -/
theorem along_cons {Q : σ → ε → Prop} {e₀ : ε} :
    (∀ pre e post, e₀ :: evs = pre ++ e :: post → Q (pre.foldl step s₀) e) ↔
      Q s₀ e₀ ∧ ∀ pre e post, evs = pre ++ e :: post → Q (pre.foldl step (step s₀ e₀)) e := by
  constructor
  · intro h
    refine ⟨h [] e₀ evs rfl, fun pre e post heq => ?_⟩
    exact h (e₀ :: pre) e post (congrArg (List.cons e₀) heq)
  · rintro ⟨hfirst, hrest⟩ pre e post heq
    rcases List.cons_eq_append_iff.mp heq with ⟨rfl, hcons⟩ | ⟨tail, rfl, htail⟩
    · obtain ⟨rfl, -⟩ := List.cons.inj hcons
      exact hfirst
    · exact hrest tail e post htail

section Calls

variable {I : σ → Prop} {good legal : σ → ε → Prop} {P : ε → Prop}

/-- An invariant that legal events keep holds where all events before were legal. -/
theorem kept_along (h0 : I s₀) (hkeep : ∀ s e, I s → P e → legal s e → I (step s e))
    (hp : ∀ e ∈ evs, P e)
    (hlegal : ∀ pre e post, evs = pre ++ e :: post → I (pre.foldl step s₀) →
      legal (pre.foldl step s₀) e) :
    ∀ pre post, evs = pre ++ post → I (pre.foldl step s₀) := by
  intro pre
  induction pre using List.reverseRecOn with
  | nil => exact fun _ _ => h0
  | append_singleton pre e ih =>
      intro post heq
      rw [List.append_assoc, List.singleton_append] at heq
      have hmem : e ∈ evs := heq ▸ List.mem_append_right _ (.head _)
      rw [List.foldl_append, List.foldl_cons, List.foldl_nil]
      exact hkeep _ e (ih _ heq) (hp e hmem) (hlegal pre e post heq (ih _ heq))

/-- **When all calls are good.**  If legal events keep an invariant, under which the good events
are the legal ones, then all events of a list are good exactly if all are legal. -/
theorem calls_iff (h0 : I s₀) (hkeep : ∀ s e, I s → P e → legal s e → I (step s e))
    (hgood : ∀ s e, I s → P e → (good s e ↔ legal s e)) (hp : ∀ e ∈ evs, P e) :
    (∀ pre e post, evs = pre ++ e :: post → good (pre.foldl step s₀) e) ↔
      ∀ pre e post, evs = pre ++ e :: post → legal (pre.foldl step s₀) e := by
  have hmem : ∀ {pre e post}, evs = pre ++ e :: post → P e :=
    fun heq => hp _ (heq ▸ List.mem_append_right _ (.head _))
  constructor
  · intro h
    have hI := kept_along h0 hkeep hp
      (fun pre e post heq hi => (hgood _ e hi (hmem heq)).mp (h pre e post heq))
    exact fun pre e post heq => (hgood _ e (hI pre _ heq) (hmem heq)).mp (h pre e post heq)
  · intro h
    have hI := kept_along h0 hkeep hp (fun pre e post heq _ => h pre e post heq)
    exact fun pre e post heq => (hgood _ e (hI pre _ heq) (hmem heq)).mpr (h pre e post heq)

/-- **When a law lasts.**  If legal events keep an invariant, which has the law `J`, and others
break the law, then `J` holds all along a list of events exactly if all are legal. -/
theorem lasts_iff {J : σ → Prop} (h0 : I s₀) (hlaw : ∀ s, I s → J s)
    (hkeep : ∀ s e, I s → P e → legal s e → I (step s e))
    (hbreak : ∀ s e, I s → P e → J (step s e) → legal s e) (hp : ∀ e ∈ evs, P e) :
    (∀ pre post, evs = pre ++ post → J (pre.foldl step s₀)) ↔
      ∀ pre e post, evs = pre ++ e :: post → legal (pre.foldl step s₀) e := by
  have hgood : ∀ s e, I s → P e → (J (step s e) ↔ legal s e) := fun s e hi he =>
    ⟨hbreak s e hi he, fun hl => hlaw _ (hkeep s e hi he hl)⟩
  constructor
  · intro h
    refine (calls_iff h0 hkeep hgood hp).mp (fun pre e post heq => ?_)
    have hnext := h (pre ++ [e]) post (by rw [heq, List.append_assoc, List.singleton_append])
    rwa [List.foldl_append, List.foldl_cons, List.foldl_nil] at hnext
  · intro hlegal pre post heq
    have hkept := kept_along h0 hkeep hp (fun pre e post heq _ => hlegal pre e post heq)
    exact hlaw _ (hkept pre post heq)

/-- **When an invariant lasts.**  If a step from a state with `I` leads to one with `I` exactly
if it is legal, then `I` holds all along a list of events exactly if it holds at the start and
every event is legal where it happens. -/
theorem always_iff (hs : ∀ s e, I s → P e → (I (step s e) ↔ legal s e)) (hp : ∀ e ∈ evs, P e) :
    (∀ pre post, evs = pre ++ post → I (pre.foldl step s₀)) ↔
      I s₀ ∧ ∀ pre e post, evs = pre ++ e :: post → legal (pre.foldl step s₀) e := by
  have hiff := fun h0 : I s₀ => lasts_iff h0 (fun _ => id)
    (fun s e hi he => (hs s e hi he).mpr) (fun s e hi he => (hs s e hi he).mp) hp
  constructor
  · intro h
    exact ⟨h [] evs rfl, (hiff (h [] evs rfl)).mp h⟩
  · rintro ⟨h0, hlegal⟩
    exact (hiff h0).mpr hlegal

end Calls

end Exec
