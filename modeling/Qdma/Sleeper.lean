/-
# A thread that sleeps when it has nothing to do

A thread has a list of items that may have work.  It marks itself as going to sleep, looks at the
items one after the other, and sleeps unless it has found work or somebody has woken it since;
then it serves all items and begins again.  While it looks and serves it holds the lock of its
list.  Others change the world between any two of its steps, the list only under its lock, and
wake the thread, at once or a little later, when they may have made work.

`quiet_asleep`: it never sleeps over work unless a wake-up is on its way.  `comes_to_serve`: what
has work is served by the thread's own steps, once the wake-ups on their way have arrived.
`stop_seen_iff`: the flag that ends the thread is tested before the mark is set, so a stop that
falls in between is missed; `stop_or_timer`: but not if a timer wakes the thread.
-/
import Qdma.Exec
import Mathlib.Logic.Function.Iterate

namespace Sleeper

open Exec

variable {σ ι ε : Type*}

/-! ## The thread -/

/-- Where the thread is: before or behind the test of the flag, looking at the items `left`, done
with that, asleep, serving the items `left`, or gone. -/
inductive Pc (ι : Type*) where
  | top
  | passed
  | looking (left : List ι)
  | idle
  | asleep
  | serving (left : List ι)
  | gone

/-- How somebody who has changed the world wakes the thread. -/
inductive Signal where
  | none
  | now
  | later
  deriving DecidableEq

/-- It holds the lock of its list. -/
def Pc.busy : Pc ι → Bool
  | .looking _ | .serving _ => true
  | _ => false

/-- The items of a thread, which of them have work, how it is done, and what others do, some of it
under the lock of the list. -/
structure Shop (σ ι ε : Type*) where
  items : σ → List ι
  work : ι → σ → Bool
  serve : ι → σ → σ
  env : ε → σ → σ × Signal
  locks : ε → Bool

/-- **What the others keep to**, in a world with the law `J`: the list changes only under its lock,
and whoever makes work, or puts an item with work on the list, wakes the thread. -/
structure Shop.Law (P : Shop σ ι ε) (J : σ → Prop) (legal : ε → σ → Prop) : Prop where
  serve : ∀ i w, J w → J (P.serve i w)
  env : ∀ e w, J w → legal e w → J (P.env e w).1
  items_serve : ∀ i w, P.items (P.serve i w) = P.items w
  items_env : ∀ e w, legal e w → P.locks e = false → P.items (P.env e w).1 = P.items w
  signals : ∀ e w, J w → legal e w → ∀ i ∈ P.items (P.env e w).1, P.work i (P.env e w).1 = true →
    (i ∈ P.items w ∧ P.work i w = true) ∨ (P.env e w).2 ≠ .none

/-- The world, the thread, whether it is marked as running, the wake-ups on their way, and the flag
that ends it. -/
structure State (σ ι : Type*) where
  world : σ
  pc : Pc ι := .top
  awake : Bool := true
  owed : ℕ := 0
  stop : Bool := false

/-- What can happen: a step of the thread, one of the others, a wake-up that arrives, one that
nobody owed, and the order to stop. -/
inductive Act (ε : Type*) where
  | own
  | env (e : ε)
  | arrive
  | poke
  | stop

/-- A step of the thread. -/
def State.own (P : Shop σ ι ε) (s : State σ ι) : State σ ι :=
  match s.pc with
  | .top => { s with pc := if s.stop then .gone else .passed }
  | .passed => { s with pc := .looking (P.items s.world), awake := false }
  | .looking [] => { s with pc := .idle }
  | .looking (i :: left) =>
      if P.work i s.world then { s with pc := .serving (P.items s.world), awake := true }
      else { s with pc := .looking left }
  | .idle => { s with pc := if s.awake then .serving (P.items s.world) else .asleep }
  | .asleep => { s with pc := if s.awake then .serving (P.items s.world) else .asleep }
  | .serving [] => { s with pc := .top }
  | .serving (i :: left) => { s with world := P.serve i s.world, pc := .serving left }
  | .gone => s

/-- A step of the system. -/
def State.step (P : Shop σ ι ε) (s : State σ ι) : Act ε → State σ ι
  | .own => s.own P
  | .env e =>
      let r := P.env e s.world
      { s with
        world := r.1
        awake := s.awake || decide (r.2 = .now)
        owed := if r.2 = .later then s.owed + 1 else s.owed }
  | .arrive => { s with awake := true, owed := s.owed - 1 }
  | .poke => { s with awake := true }
  | .stop => { s with stop := true, awake := true }

/-- Others do what is legal, and wait for the lock; only a wake-up on its way arrives. -/
def State.Ok (P : Shop σ ι ε) (legal : ε → σ → Prop) (s : State σ ι) : Act ε → Prop
  | .env e => legal e s.world ∧ (P.locks e = true → s.pc.busy = false)
  | .arrive => 0 < s.owed
  | _ => True

/-! ## No lost wake-up -/

/-- The thread has looked at the item and found nothing. -/
def State.Passed (P : Shop σ ι ε) (s : State σ ι) (i : ι) : Prop :=
  match s.pc with
  | .looking left => ∃ before, P.items s.world = before ++ left ∧ i ∈ before
  | .idle | .asleep => i ∈ P.items s.world
  | _ => False

/-- **The law of the thread**: it looks through its items in order, and where it has looked there
is no work unless it has been woken since or is going to be.  It is gone only if it was told to
stop. -/
structure State.Inv (P : Shop σ ι ε) (J : σ → Prop) (s : State σ ι) : Prop where
  world : J s.world
  order : ∀ left, s.pc = .looking left → ∃ before, P.items s.world = before ++ left
  woken : ∀ i, s.Passed P i → P.work i s.world = true → s.awake = true ∨ 0 < s.owed
  gone : s.pc = .gone → s.stop = true

variable {P : Shop σ ι ε} {J : σ → Prop} {legal : ε → σ → Prop} {s s' : State σ ι}

theorem State.Passed.mem {i : ι} (h : s.Passed P i) : i ∈ P.items s.world := by
  unfold State.Passed at h
  split at h
  · obtain ⟨before, heq, hmem⟩ := h
    rw [heq]
    exact List.mem_append_left _ hmem
  · exact h
  · exact h
  · exact h.elim

/-- Of a thread that neither looks nor sleeps there is nothing to say. -/
theorem inv_of_far (hw : J s.world) (h1 : ∀ left, s.pc ≠ .looking left) (h2 : s.pc ≠ .idle)
    (h3 : s.pc ≠ .asleep) (h4 : s.pc = .gone → s.stop = true) : s.Inv P J := by
  refine ⟨hw, fun left hl => absurd hl (h1 left), fun i hi => ?_, h4⟩
  unfold State.Passed at hi
  split at hi
  · exact absurd (by assumption) (h1 _)
  · exact absurd (by assumption) h2
  · exact absurd (by assumption) h3
  · exact hi.elim

/-- A step of the thread keeps the law. -/
theorem State.Inv.own (hlaw : P.Law J legal) (h : s.Inv P J) : (s.own P).Inv P J := by
  have hworld := h.world
  obtain ⟨w, pc, awake, owed, stop⟩ := s
  cases pc with
  | top =>
      unfold State.own
      cases stop with
      | true => exact inv_of_far hworld (by simp) (by simp) (by simp) (fun _ => rfl)
      | false => exact inv_of_far hworld (by simp) (by simp) (by simp) (by simp)
  | passed =>
      refine ⟨hworld, fun left hl => ?_, fun i hi => ?_, fun hg => by cases hg⟩
      · cases hl
        exact ⟨[], rfl⟩
      · -- nothing has been looked at yet
        obtain ⟨before, heq, hmem⟩ := hi
        rw [List.self_eq_append_left.mp heq] at hmem
        cases hmem
  | looking left =>
      cases left with
      | nil =>
          refine ⟨hworld, fun left hl => (by cases hl), fun i hi hw => h.woken i ?_ hw,
            fun hg => by cases hg⟩
          exact ⟨P.items w, (List.append_nil _).symm, hi⟩
      | cons i left =>
          unfold State.own
          by_cases hwork : P.work i w = true
          · simp only [hwork, if_true]
            exact inv_of_far hworld (by simp) (by simp) (by simp) (by simp)
          · simp only [hwork, Bool.false_eq_true, if_false]
            obtain ⟨before, heq⟩ := h.order _ rfl
            have hnext : P.items w = (before ++ [i]) ++ left := by
              rw [List.append_assoc]
              exact heq
            refine ⟨hworld, fun left' hl => ?_, fun j hj hw => ?_, fun hg => by cases hg⟩
            · cases hl
              exact ⟨_, hnext⟩
            · obtain ⟨before', heq', hmem⟩ := hj
              have hsame : before' = before ++ [i] :=
                List.append_cancel_right (heq'.symm.trans hnext)
              rw [hsame] at hmem
              rcases List.mem_append.mp hmem with hmem | hmem
              · exact h.woken j ⟨before, heq, hmem⟩ hw
              · rw [List.mem_singleton.mp hmem] at hw
                exact absurd hw hwork
  | idle =>
      unfold State.own
      cases awake with
      | true => exact inv_of_far hworld (by simp) (by simp) (by simp) (by simp)
      | false =>
          exact ⟨hworld, fun left hl => (by cases hl), fun i hi hw => h.woken i hi hw,
            fun hg => by cases hg⟩
  | asleep =>
      unfold State.own
      cases awake with
      | true => exact inv_of_far hworld (by simp) (by simp) (by simp) (by simp)
      | false =>
          exact ⟨hworld, fun left hl => (by cases hl), fun i hi hw => h.woken i hi hw,
            fun hg => by cases hg⟩
  | serving left =>
      cases left with
      | nil =>
          show State.Inv P J { world := w, pc := .top, awake := awake, owed := owed, stop := stop }
          exact inv_of_far hworld (by simp) (by simp) (by simp) (by simp)
      | cons i left =>
          show State.Inv P J { world := P.serve i w, pc := .serving left, awake := awake,
                               owed := owed, stop := stop }
          exact inv_of_far (hlaw.serve i w hworld) (by simp) (by simp) (by simp) (by simp)
  | gone => exact h

/-- Where the thread is told to look again, nothing has been lost. -/
theorem State.Inv.awaken (h : s.Inv P J) {stop : Bool} {owed : ℕ}
    (hstop : s.stop = true → stop = true) :
    ({ s with awake := true, owed := owed, stop := stop } : State σ ι).Inv P J :=
  ⟨h.world, h.order, fun _ _ _ => .inl rfl, fun hg => hstop (h.gone hg)⟩

/-- What others do keeps the law. -/
theorem State.Inv.env (hlaw : P.Law J legal) (h : s.Inv P J) {e : ε}
    (hok : s.Ok P legal (.env e)) : (s.step P (.env e)).Inv P J := by
  -- on a thread that holds the lock the list is as it was
  have hitems : ∀ left, s.pc = .looking left → P.items (P.env e s.world).1 = P.items s.world := by
    intro left hl
    refine hlaw.items_env e s.world hok.1 ?_
    rw [← Bool.not_eq_true]
    intro hlocks
    have hbusy := hok.2 hlocks
    rw [hl] at hbusy
    cases hbusy
  refine ⟨hlaw.env e _ h.world hok.1, fun left hl => ?_, fun i hi hw => ?_, h.gone⟩
  · obtain ⟨before, heq⟩ := h.order left hl
    exact ⟨before, (hitems left hl).trans heq⟩
  have hbefore : i ∈ P.items s.world → s.Passed P i := by
    unfold State.Passed at hi ⊢
    intro hmem
    cases hpc : s.pc with
    | looking left =>
        simp only [State.step, hpc] at hi
        rw [hitems left hpc] at hi
        exact hi
    | idle => exact hmem
    | asleep => exact hmem
    | top => simp only [State.step, hpc] at hi
    | passed => simp only [State.step, hpc] at hi
    | serving left => simp only [State.step, hpc] at hi
    | gone => simp only [State.step, hpc] at hi
  show (s.awake || decide ((P.env e s.world).2 = .now)) = true ∨
    0 < (if (P.env e s.world).2 = .later then s.owed + 1 else s.owed)
  rcases hlaw.signals e s.world h.world hok.1 i hi.mem hw with ⟨hmem, hold⟩ | hsome
  · rcases h.woken i (hbefore hmem) hold with hawake | howed
    · exact .inl (by rw [hawake]; rfl)
    · refine .inr ?_
      split_ifs
      · exact Nat.succ_pos _
      · exact howed
  · -- the step has made the work, and so it wakes the thread
    cases hsgn : (P.env e s.world).2 with
    | none => exact absurd hsgn hsome
    | now => exact .inl (by simp)
    | later => exact .inr (by simp)

/-- **Every step keeps the law.** -/
theorem State.Inv.step (hlaw : P.Law J legal) (h : s.Inv P J) {a : Act ε}
    (hok : s.Ok P legal a) : (s.step P a).Inv P J := by
  cases a with
  | own => exact h.own hlaw
  | env e => exact h.env hlaw hok
  | arrive => exact h.awaken id
  | poke => exact h.awaken id
  | stop => exact h.awaken (fun _ => rfl)

/-- A thread that has just been started. -/
theorem inv_start (P : Shop σ ι ε) {w : σ} (hw : J w) : ({ world := w } : State σ ι).Inv P J :=
  inv_of_far hw (by simp) (by simp) (by simp) (by simp)

theorem inv_run (hlaw : P.Law J legal) {w : σ} (hw : J w) {acts : List (Act ε)}
    (hrun : Run (State.step P) (State.Ok P legal) { world := w } acts s) : s.Inv P J :=
  hrun.invariant (inv_start P hw) (fun _ _ h hok => h.step hlaw hok)

/-- The thread can always take its next steps. -/
theorem run_own (n : ℕ) (s : State σ ι) :
    Run (State.step P) (State.Ok P legal) s (List.replicate n .own) ((State.own P)^[n] s) := by
  induction n generalizing s with
  | zero => exact Run.nil
  | succ n ih =>
      have hone : Run (State.step P) (State.Ok P legal) s [.own] (s.own P) := Run.one trivial
      exact hone.append (ih (s.own P))

/-- **No wake-up is lost.**  A thread that sleeps has no work, unless a wake-up is on its way. -/
theorem quiet_asleep (h : s.Inv P J) (hpc : s.pc = .asleep) (hawake : s.awake = false)
    (howed : s.owed = 0) : ∀ i ∈ P.items s.world, P.work i s.world = false := by
  intro i hi
  by_contra hw
  rw [Bool.not_eq_false] at hw
  have hpassed : s.Passed P i := by
    unfold State.Passed
    rw [hpc]
    exact hi
  rcases h.woken i hpassed hw with ha | ho
  · rw [hawake] at ha
    cases ha
  · omega

/-! ## Work gets served -/

/-- Serving an item makes no difference to the work of others. -/
def Shop.Apart (P : Shop σ ι ε) : Prop :=
  ∀ i j w, i ≠ j → P.work i (P.serve j w) = P.work i w

/-- The thread comes from one state to another by its own steps and the wake-ups that arrive. -/
inductive Comes (P : Shop σ ι ε) : State σ ι → State σ ι → Prop
  | refl (s : State σ ι) : Comes P s s
  | own {s t : State σ ι} (h : Comes P (s.own P) t) : Comes P s t
  | arrive {s t : State σ ι} (howed : 0 < s.owed)
      (h : Comes P { s with awake := true, owed := s.owed - 1 } t) : Comes P s t

/-- The thread comes to serve the item, which still has work then. -/
def Serves (P : Shop σ ι ε) (s : State σ ι) (i : ι) : Prop :=
  ∃ s', Comes P s s' ∧ (∃ left, s'.pc = .serving (i :: left)) ∧ P.work i s'.world = true

theorem Serves.own {i : ι} (h : Serves P (s.own P) i) : Serves P s i := by
  obtain ⟨s', hcomes, hrest⟩ := h
  exact ⟨s', hcomes.own, hrest⟩

variable {i : ι}

/-- An item that is yet to be served in this round is served. -/
theorem serves_of_serving (hap : P.Apart) (left : List ι) (hmem : i ∈ left)
    (hpc : s.pc = .serving left) (hw : P.work i s.world = true) : Serves P s i := by
  induction left generalizing s with
  | nil => exact absurd hmem List.not_mem_nil
  | cons j left ih =>
      by_cases hij : i = j
      · subst hij
        exact ⟨s, .refl s, ⟨left, hpc⟩, hw⟩
      · have hown : s.own P = { s with world := P.serve j s.world, pc := .serving left } := by
          unfold State.own
          rw [hpc]
        refine Serves.own ?_
        rw [hown]
        refine ih ((List.mem_cons.mp hmem).resolve_left hij) rfl ?_
        rw [hap i j s.world hij]
        exact hw

/-- A thread that has been woken serves its items. -/
theorem serves_of_awake (hap : P.Apart) (hmem : i ∈ P.items s.world)
    (hpc : s.pc = .idle ∨ s.pc = .asleep) (hawake : s.awake = true)
    (hw : P.work i s.world = true) : Serves P s i := by
  have hown : s.own P = { s with pc := .serving (P.items s.world) } := by
    unfold State.own
    rcases hpc with hpc | hpc
    · rw [hpc]
      simp only [hawake, if_true]
    · rw [hpc]
      simp only [hawake, if_true]
  refine Serves.own ?_
  rw [hown]
  exact serves_of_serving hap _ hmem rfl hw

/-- A thread that has looked at the item comes to serve it. -/
theorem serves_of_looked (hap : P.Apart) (h : s.Inv P J) (hmem : i ∈ P.items s.world)
    (hpc : s.pc = .idle ∨ s.pc = .asleep) (hw : P.work i s.world = true) : Serves P s i := by
  have hpassed : s.Passed P i := by
    unfold State.Passed
    rcases hpc with hpc | hpc <;> rw [hpc] <;> exact hmem
  rcases h.woken i hpassed hw with hawake | howed
  · exact serves_of_awake hap hmem hpc hawake hw
  · have hserves : Serves P { s with awake := true, owed := s.owed - 1 } i :=
      serves_of_awake hap hmem hpc rfl hw
    obtain ⟨s', hcomes, hrest⟩ := hserves
    exact ⟨s', .arrive howed hcomes, hrest⟩

theorem serves_of_looking (hlaw : P.Law J legal) (hap : P.Apart) (left : List ι) (h : s.Inv P J)
    (hmem : i ∈ P.items s.world) (hpc : s.pc = .looking left) (hw : P.work i s.world = true) :
    Serves P s i := by
  induction left generalizing s with
  | nil =>
      have hown : s.own P = { s with pc := .idle } := by
        unfold State.own
        rw [hpc]
      have hinv := h.own hlaw
      refine Serves.own ?_
      rw [hown] at hinv ⊢
      exact serves_of_looked hap hinv hmem (.inl rfl) hw
  | cons j left ih =>
      have hinv := h.own hlaw
      refine Serves.own ?_
      by_cases hj : P.work j s.world = true
      · have hown : s.own P = { s with pc := .serving (P.items s.world), awake := true } := by
          unfold State.own
          rw [hpc]
          simp only [hj, if_true]
        rw [hown]
        exact serves_of_serving hap _ hmem rfl hw
      · have hown : s.own P = { s with pc := .looking left } := by
          unfold State.own
          rw [hpc]
          simp only [hj, Bool.false_eq_true, if_false]
        rw [hown] at hinv ⊢
        exact ih hinv hmem rfl hw

/-- A thread that begins a round comes to serve what has work. -/
theorem serves_of_passed (hlaw : P.Law J legal) (hap : P.Apart) (h : s.Inv P J)
    (hmem : i ∈ P.items s.world) (hpc : s.pc = .passed) (hw : P.work i s.world = true) :
    Serves P s i := by
  have hinv := h.own hlaw
  have hown : s.own P = { s with pc := .looking (P.items s.world), awake := false } := by
    unfold State.own
    rw [hpc]
  refine Serves.own ?_
  rw [hown] at hinv ⊢
  exact serves_of_looking hlaw hap _ hinv hmem rfl hw

theorem serves_of_top (hlaw : P.Law J legal) (hap : P.Apart) (h : s.Inv P J)
    (hmem : i ∈ P.items s.world) (hpc : s.pc = .top) (hstop : s.stop = false)
    (hw : P.work i s.world = true) : Serves P s i := by
  have hinv := h.own hlaw
  have hown : s.own P = { s with pc := .passed } := by
    unfold State.own
    rw [hpc]
    simp only [hstop, Bool.false_eq_true, if_false]
  refine Serves.own ?_
  rw [hown] at hinv ⊢
  exact serves_of_passed hlaw hap hinv hmem rfl hw

/-- In the middle of a round the item is served in this one or in the next. -/
theorem serves_of_round (hlaw : P.Law J legal) (hap : P.Apart) (left : List ι) (h : s.Inv P J)
    (hstop : s.stop = false) (hmem : i ∈ P.items s.world) (hpc : s.pc = .serving left)
    (hw : P.work i s.world = true) : Serves P s i := by
  induction left generalizing s with
  | nil =>
      have hinv := h.own hlaw
      have hown : s.own P = { s with pc := .top } := by
        unfold State.own
        rw [hpc]
      refine Serves.own ?_
      rw [hown] at hinv ⊢
      exact serves_of_top hlaw hap hinv hmem rfl hstop hw
  | cons j left ih =>
      by_cases hij : i = j
      · subst hij
        exact ⟨s, .refl s, ⟨left, hpc⟩, hw⟩
      · have hinv := h.own hlaw
        have hown : s.own P = { s with world := P.serve j s.world, pc := .serving left } := by
          unfold State.own
          rw [hpc]
        refine Serves.own ?_
        rw [hown] at hinv ⊢
        refine ih hinv hstop ?_ rfl ?_
        · show i ∈ P.items (P.serve j s.world)
          rw [hlaw.items_serve]
          exact hmem
        · show P.work i (P.serve j s.world) = true
          rw [hap i j s.world hij]
          exact hw

/-- **What has work gets served**, by the steps of the thread and the wake-ups on their way alone,
unless the thread was told to stop. -/
theorem comes_to_serve (hlaw : P.Law J legal) (hap : P.Apart) (h : s.Inv P J)
    (hstop : s.stop = false) (hmem : i ∈ P.items s.world) (hw : P.work i s.world = true) :
    Serves P s i := by
  cases hpc : s.pc with
  | top => exact serves_of_top hlaw hap h hmem hpc hstop hw
  | passed => exact serves_of_passed hlaw hap h hmem hpc hw
  | looking left => exact serves_of_looking hlaw hap left h hmem hpc hw
  | idle => exact serves_of_looked hap h hmem (.inl hpc) hw
  | asleep => exact serves_of_looked hap h hmem (.inr hpc) hw
  | serving left => exact serves_of_round hlaw hap left h hstop hmem hpc hw
  | gone =>
      have hgone := h.gone hpc
      rw [hstop] at hgone
      cases hgone

/-! ## Stopping -/

/-- The thread ends by itself. -/
def Ends (P : Shop σ ι ε) (s : State σ ι) : Prop := ∃ n, ((State.own P)^[n] s).pc = .gone

theorem Ends.own (h : Ends P (s.own P)) : Ends P s := by
  obtain ⟨n, hn⟩ := h
  exact ⟨n + 1, by rw [Function.iterate_succ_apply]; exact hn⟩

theorem ends_of_serving (left : List ι) (hpc : s.pc = .serving left) (hstop : s.stop = true) :
    Ends P s := by
  induction left generalizing s with
  | nil =>
      refine Ends.own (Ends.own ⟨0, ?_⟩)
      simp only [Function.iterate_zero, id_eq, State.own, hpc, hstop, if_true]
  | cons j left ih =>
      refine Ends.own (ih ?_ ?_) <;> simp only [State.own, hpc, hstop]

theorem ends_of_awake (hpc : s.pc = .idle ∨ s.pc = .asleep) (hawake : s.awake = true)
    (hstop : s.stop = true) : Ends P s := by
  refine Ends.own (ends_of_serving (P.items s.world) ?_ ?_) <;>
    rcases hpc with hpc | hpc <;> simp only [State.own, hpc, hawake, hstop, if_true]

/-- A thread that looks through its items ends if it has been woken or finds work. -/
theorem ends_of_looking (left : List ι) (hpc : s.pc = .looking left) (hstop : s.stop = true)
    (h : s.awake = true ∨ ∃ i ∈ left, P.work i s.world = true) : Ends P s := by
  induction left generalizing s with
  | nil =>
      have hawake : s.awake = true := by
        rcases h with h | ⟨i, hi, -⟩
        · exact h
        · exact absurd hi List.not_mem_nil
      refine Ends.own (ends_of_awake (.inl ?_) ?_ ?_) <;> simp only [State.own, hpc, hawake, hstop]
  | cons j left ih =>
      refine Ends.own ?_
      by_cases hj : P.work j s.world = true
      · refine ends_of_serving (P.items s.world) ?_ ?_ <;>
          simp only [State.own, hpc, hj, hstop, if_true]
      · refine ih ?_ ?_ ?_
        · simp only [State.own, hpc, hj, Bool.false_eq_true, if_false]
        · simp only [State.own, hpc, hj, hstop, Bool.false_eq_true, if_false]
        · simp only [State.own, hpc, hj, Bool.false_eq_true, if_false]
          rcases h with h | ⟨i, hi, hw⟩
          · exact .inl h
          · rcases List.mem_cons.mp hi with rfl | hi
            · exact absurd hw hj
            · exact .inr ⟨i, hi, hw⟩

/-- The thread looks or sleeps, nobody has woken it, and there is nothing to do. -/
structure Stuck (P : Shop σ ι ε) (s : State σ ι) : Prop where
  pc : (∃ left, s.pc = .looking left ∧ ∀ i ∈ left, i ∈ P.items s.world) ∨ s.pc = .idle ∨
    s.pc = .asleep
  awake : s.awake = false
  quiet : ∀ i ∈ P.items s.world, P.work i s.world = false

theorem Stuck.own (h : Stuck P s) : Stuck P (s.own P) := by
  obtain ⟨hpc, hawake, hquiet⟩ := h
  rcases hpc with ⟨left, hpc, hmem⟩ | hpc | hpc
  · cases left with
    | nil =>
        have hown : s.own P = { s with pc := .idle } := by
          unfold State.own
          rw [hpc]
        rw [hown]
        exact ⟨.inr (.inl rfl), hawake, hquiet⟩
    | cons j left =>
        have hown : s.own P = { s with pc := .looking left } := by
          unfold State.own
          rw [hpc]
          simp only [hquiet j (hmem j (List.mem_cons_self ..)), Bool.false_eq_true, if_false]
        rw [hown]
        exact ⟨.inl ⟨left, rfl, fun i hi => hmem i (List.mem_cons_of_mem _ hi)⟩, hawake, hquiet⟩
  · have hown : s.own P = { s with pc := .asleep } := by
      unfold State.own
      rw [hpc]
      simp only [hawake, Bool.false_eq_true, if_false]
    rw [hown]
    exact ⟨.inr (.inr rfl), hawake, hquiet⟩
  · have hown : s.own P = { s with pc := .asleep } := by
      unfold State.own
      rw [hpc]
      simp only [hawake, Bool.false_eq_true, if_false]
    rw [hown]
    exact ⟨.inr (.inr rfl), hawake, hquiet⟩

theorem Stuck.not_ends (h : Stuck P s) : ¬ Ends P s := by
  rintro ⟨n, hn⟩
  have hstuck : Stuck P ((State.own P)^[n] s) := by
    clear hn
    induction n generalizing s with
    | zero => exact h
    | succ n ih =>
        rw [Function.iterate_succ_apply]
        exact ih h.own
  rcases hstuck.pc with ⟨left, hpc, -⟩ | hpc | hpc
  · rw [hn] at hpc
    cases hpc
  · rw [hn] at hpc
    cases hpc
  · rw [hn] at hpc
    cases hpc

/-- **When an order to stop is seen**: unless it comes behind the test of the flag and before the
mark, with nothing to do. -/
theorem stop_seen_iff :
    Ends P (s.step P .stop) ↔
      ¬ (s.pc = .passed ∧ ∀ i ∈ P.items s.world, P.work i s.world = false) := by
  constructor
  · rintro hends ⟨hpc, hquiet⟩
    obtain ⟨n, hn⟩ := hends
    have hown : (s.step P .stop).own P
        = { s with stop := true, pc := .looking (P.items s.world), awake := false } := by
      unfold State.step State.own
      rw [hpc]
    have hstuck : Stuck P ((s.step P .stop).own P) := by
      rw [hown]
      exact ⟨.inl ⟨P.items s.world, rfl, fun _ hi => hi⟩, rfl, hquiet⟩
    cases n with
    | zero =>
        rw [Function.iterate_zero, id_eq, State.step, hpc] at hn
        cases hn
    | succ n =>
        rw [Function.iterate_succ_apply] at hn
        exact hstuck.not_ends ⟨n, hn⟩
  · intro hnot
    cases hpc : s.pc with
    | top =>
        refine Ends.own ⟨0, ?_⟩
        simp only [Function.iterate_zero, id_eq, State.own, State.step, hpc, if_true]
    | passed =>
        have hwork : ∃ i ∈ P.items s.world, P.work i s.world = true := by
          by_contra hno
          refine hnot ⟨hpc, fun i hi => ?_⟩
          rw [← Bool.not_eq_true]
          exact fun hw => hno ⟨i, hi, hw⟩
        refine Ends.own (ends_of_looking (P.items s.world) ?_ ?_ (.inr ?_)) <;>
          simp only [State.own, State.step, hpc]
        exact hwork
    | looking left => exact ends_of_looking left hpc rfl (.inl rfl)
    | idle => exact ends_of_awake (.inl hpc) rfl rfl
    | asleep => exact ends_of_awake (.inr hpc) rfl rfl
    | serving left => exact ends_of_serving left hpc rfl
    | gone => exact ⟨0, hpc⟩

/-- A thread that is told to stop looks through its items at most once more: it ends, or it falls
asleep and ends once a timer wakes it. -/
def EndsTimed (P : Shop σ ι ε) (s : State σ ι) : Prop :=
  Ends P s ∨ ∃ n, ((State.own P)^[n] s).pc = .asleep ∧
    Ends P (((State.own P)^[n] s).step P .poke)

theorem EndsTimed.own (h : EndsTimed P (s.own P)) : EndsTimed P s := by
  rcases h with h | ⟨n, hn⟩
  · exact .inl h.own
  · refine .inr ⟨n + 1, ?_⟩
    rw [Function.iterate_succ_apply]
    exact hn

theorem endsTimed_of_asleep (hpc : s.pc = .idle ∨ s.pc = .asleep) (hstop : s.stop = true) :
    EndsTimed P s := by
  by_cases hawake : s.awake = true
  · exact .inl (ends_of_awake hpc hawake hstop)
  · have hpc' : (s.own P).pc = .asleep := by
      rcases hpc with hpc | hpc <;>
        simp only [State.own, hpc, hawake, Bool.false_eq_true, if_false]
    have hstop' : (s.own P).stop = true := by
      rcases hpc with hpc | hpc <;>
        simp only [State.own, hpc, hawake, hstop, Bool.false_eq_true, if_false]
    exact .inr ⟨1, hpc', ends_of_awake (.inr hpc') rfl hstop'⟩

theorem endsTimed_of_looking (left : List ι) (hpc : s.pc = .looking left) (hstop : s.stop = true) :
    EndsTimed P s := by
  induction left generalizing s with
  | nil =>
      refine EndsTimed.own (endsTimed_of_asleep (.inl ?_) ?_) <;> simp only [State.own, hpc, hstop]
  | cons j left ih =>
      by_cases hj : P.work j s.world = true
      · exact .inl (ends_of_looking _ hpc hstop (.inr ⟨j, List.mem_cons_self .., hj⟩))
      · refine EndsTimed.own (ih ?_ ?_) <;>
          simp only [State.own, hpc, hj, hstop, Bool.false_eq_true, if_false]

/-- **With a timer the order is always seen.** -/
theorem stop_or_timer : EndsTimed P (s.step P .stop) := by
  cases hpc : s.pc with
  | passed =>
      refine EndsTimed.own (endsTimed_of_looking (P.items s.world) ?_ ?_) <;>
        simp only [State.own, State.step, hpc]
  | looking left => exact endsTimed_of_looking left hpc rfl
  | top => exact .inl (stop_seen_iff.mpr (fun h => by rw [hpc] at h; cases h.1))
  | idle => exact .inl (stop_seen_iff.mpr (fun h => by rw [hpc] at h; cases h.1))
  | asleep => exact .inl (stop_seen_iff.mpr (fun h => by rw [hpc] at h; cases h.1))
  | serving left => exact .inl (stop_seen_iff.mpr (fun h => by rw [hpc] at h; cases h.1))
  | gone => exact .inl (stop_seen_iff.mpr (fun h => by rw [hpc] at h; cases h.1))

end Sleeper
