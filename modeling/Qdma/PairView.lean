/-
# Taking, configuring and disabling the queues of a pair

The calls that add, configure and remove queues run side by side.  What matters of them here is
the `PairView`: which queues are enabled, in which mode, and which call has taken a queue that it
has not yet configured.  Every step of a call is a `Move` of it.

`PairInv.move` says which moves keep the two queues of a pair in one mode, and every queue with
one caller at most.
-/
import Mathlib.Data.List.Basic
import Mathlib.Logic.Function.Basic

namespace Qdma

/-! ## The view -/

/-- A call has taken queue `id` and is going to give it the mode `st`; `byAdd` tells
`qdma_queue_add` from `qdma_queue_config`. -/
structure Taking where
  id : ℕ
  st : Bool
  byAdd : Bool

/-- The queues as far as the modes go: the flags, the modes that stand in the configurations,
what the calls have taken, and how many callers a queue has been handed to since it was last
removed. -/
@[ext] structure PairView where
  enabled : ℕ → Bool
  st : ℕ → Bool
  taking : ℕ → Option Taking
  given : ℕ → ℕ

/-- The other queue of the pair, of `2 * n` queues. -/
def pairOf (n id : ℕ) : ℕ := if id < n then id + n else id - n

/-- What a step can do: nothing to the view, take a queue, configure one that was taken and hand
it out, leave one as it is, or disable one. -/
inductive Move where
  | idle
  | take (t : Taking)
  | configure (t : Taking)
  | leave (t : Taking)
  | disable (id : ℕ)

/-- The view after a move of call `k`. -/
def PairView.move (v : PairView) (k : ℕ) : Move → PairView
  | .idle => v
  | .take t =>
      { v with
        enabled := Function.update v.enabled t.id true
        taking := Function.update v.taking k (some t) }
  | .configure t =>
      { v with
        st := Function.update v.st t.id t.st
        taking := Function.update v.taking k none
        given := Function.update v.given t.id (v.given t.id + 1) }
  | .leave _ => { v with taking := Function.update v.taking k none }
  | .disable id =>
      { v with
        enabled := Function.update v.enabled id false
        given := Function.update v.given id 0 }

/-- The moves that call `k` can make: it takes a queue that is not enabled, and configures or
leaves the one it has taken. -/
def Move.Can (n : ℕ) (v : PairView) (k : ℕ) : Move → Prop
  | .idle => True
  | .take t => v.taking k = none ∧ v.enabled t.id = false ∧ t.id < 2 * n
  | .configure t => v.taking k = some t
  | .leave t => v.taking k = some t
  | .disable _ => True

/-- No call under way has taken queue `id`, but those of `qdma_queue_config` perhaps. -/
def PairView.NoAdd (v : PairView) (id : ℕ) : Prop :=
  ∀ k u, v.taking k = some u → u.id = id → u.byAdd = false

/-- The other queue of the pair of `id`, if it is enabled, has the mode `m`: whoever is about to
configure it gives it that, and unless this is `qdma_queue_add` it has it already. -/
def PairView.PairHas (n : ℕ) (v : PairView) (id : ℕ) (m : Bool) : Prop :=
  v.enabled (pairOf n id) = true →
    (∀ k u, v.taking k = some u → u.id = pairOf n id → u.st = m) ∧
      (v.NoAdd (pairOf n id) → v.st (pairOf n id) = m)

/-- **The law**: while no call of `qdma_queue_add` has taken a queue, the two queues of a pair have
one mode if both are enabled; and a queue is never handed out twice. -/
structure PairAgree (n : ℕ) (v : PairView) : Prop where
  mode : (∀ id, v.NoAdd id) → ∀ i < n, v.enabled i = true → v.enabled (n + i) = true →
    v.st i = v.st (n + i)
  once : ∀ id, v.given id ≤ 1

/-- **The moves that keep it.**  A queue is taken for a mode that its pair has, and if it is
`qdma_queue_config` that takes it while the pair is enabled, the queue has this mode already; a
queue left enabled without being configured has the mode of its pair; and a queue is not disabled
while a call has taken it. -/
def Move.Fits (n : ℕ) (v : PairView) : Move → Prop
  | .take t => v.PairHas n t.id t.st ∧
      (t.byAdd = false → v.enabled (pairOf n t.id) = true → v.st t.id = t.st)
  | .leave t => v.PairHas n t.id (v.st t.id)
  | .disable id => ∀ k u, v.taking k = some u → u.id ≠ id
  | _ => True

/-! ## The invariant -/

/-- The mode queue `id` is going to have. -/
def PairView.Mode (v : PairView) (id : ℕ) (m : Bool) : Prop :=
  (∃ k t, v.taking k = some t ∧ t.id = id ∧ t.st = m) ∨
    ((∀ k t, v.taking k = some t → t.id ≠ id) ∧ v.st id = m)

/-- **The invariant.** -/
structure PairInv (n : ℕ) (v : PairView) : Prop where
  on : ∀ k t, v.taking k = some t → v.enabled t.id = true ∧ t.id < 2 * n
  one : ∀ k k' t t', v.taking k = some t → v.taking k' = some t' → t.id = t'.id → k = k'
  agree : ∀ id < 2 * n, v.enabled id = true → v.enabled (pairOf n id) = true →
    ∀ m m', v.Mode id m → v.Mode (pairOf n id) m' → m = m'
  kept : ∀ k t, v.taking k = some t → t.byAdd = false → v.enabled (pairOf n t.id) = true →
    v.st t.id = t.st
  once : ∀ id, v.given id ≤ 1
  mine : ∀ id, (v.enabled id = false ∨ ∃ k t, v.taking k = some t ∧ t.id = id) → v.given id = 0

theorem pairOf_lt {n id : ℕ} (h : id < 2 * n) : pairOf n id < 2 * n := by
  unfold pairOf
  split_ifs <;> omega

theorem pairOf_pairOf {n id : ℕ} (h : id < 2 * n) : pairOf n (pairOf n id) = id := by
  unfold pairOf
  split_ifs <;> omega

theorem pairOf_ne {n id : ℕ} (h : id < 2 * n) : pairOf n id ≠ id := by
  unfold pairOf
  split_ifs <;> omega

/-- A queue that is configured has the mode that stands there; so does one that
`qdma_queue_config` has taken, if its pair is enabled. -/
theorem PairInv.mode_st {n : ℕ} {v : PairView} (h : PairInv n v) {id : ℕ} (hno : v.NoAdd id)
    (hen : v.enabled (pairOf n id) = true) : v.Mode id (v.st id) := by
  by_cases htaken : ∃ k t, v.taking k = some t ∧ t.id = id
  · obtain ⟨k, t, ht, rfl⟩ := htaken
    exact .inl ⟨k, t, ht, rfl, (h.kept k t ht (hno k t ht rfl) hen).symm⟩
  · exact .inr ⟨fun k t ht heq => htaken ⟨k, t, ht, heq⟩, rfl⟩

/-- The invariant gives the law. -/
theorem PairInv.law {n : ℕ} {v : PairView} (h : PairInv n v) : PairAgree n v := by
  refine ⟨fun hno i hi he he' => ?_, h.once⟩
  have hpair : pairOf n i = n + i := by
    unfold pairOf
    rw [if_pos hi, Nat.add_comm]
  have hback : pairOf n (n + i) = i := by
    rw [← hpair]
    exact pairOf_pairOf (by omega)
  refine h.agree i (by omega) he (hpair ▸ he') _ _ (h.mode_st (hno i) (hpair ▸ he')) ?_
  rw [hpair]
  exact h.mode_st (hno _) (hback.symm ▸ he)

/-- One mode for a queue and one for its pair, whichever of the two is looked at. -/
theorem agree_of {n : ℕ} {v' : PairView} {x : ℕ}
    (hother : ∀ id < 2 * n, id ≠ x → pairOf n id ≠ x → v'.enabled id = true →
      v'.enabled (pairOf n id) = true → ∀ m m', v'.Mode id m → v'.Mode (pairOf n id) m' → m = m')
    (hx : x < 2 * n → v'.enabled x = true → v'.enabled (pairOf n x) = true →
      ∀ m m', v'.Mode x m → v'.Mode (pairOf n x) m' → m = m') :
    ∀ id < 2 * n, v'.enabled id = true → v'.enabled (pairOf n id) = true →
      ∀ m m', v'.Mode id m → v'.Mode (pairOf n id) m' → m = m' := by
  intro id hlt he he' m m' hm hm'
  by_cases hid : id = x
  · subst hid
    exact hx hlt he he' m m' hm hm'
  · by_cases hpair : pairOf n id = x
    · have hback : pairOf n x = id := hpair ▸ pairOf_pairOf hlt
      rw [hpair] at he' hm'
      exact (hx (hpair ▸ pairOf_lt hlt) he' (hback.symm ▸ he) m' m hm' (hback.symm ▸ hm)).symm
    · exact hother id hlt hid hpair he he' m m' hm hm'

theorem PairInv.take {n : ℕ} {v : PairView} (h : PairInv n v) {k : ℕ} {t : Taking}
    (hcan : (Move.take t).Can n v k) (hfits : (Move.take t).Fits n v) :
    PairInv n (v.move k (.take t)) := by
  obtain ⟨hfree, hoff, hlt⟩ := hcan
  obtain ⟨hpair, hown⟩ := hfits
  have hnobody : ∀ k' u, v.taking k' = some u → u.id ≠ t.id := by
    intro k' u hu heq
    have hon := (h.on k' u hu).1
    rw [heq, hoff] at hon
    exact absurd hon (by decide)
  have htaking : ∀ {k' u}, (v.move k (.take t)).taking k' = some u →
      (k' = k ∧ u = t) ∨ v.taking k' = some u := by
    intro k' u hu
    by_cases hk : k' = k
    · subst hk
      rw [show (v.move k' (.take t)).taking k' = some t from Function.update_self ..] at hu
      exact .inl ⟨rfl, (Option.some.inj hu).symm⟩
    · rw [show (v.move k (.take t)).taking k' = v.taking k' from Function.update_of_ne hk ..] at hu
      exact .inr hu
  have henabled : ∀ {id}, id ≠ t.id → (v.move k (.take t)).enabled id = v.enabled id :=
    fun hne => Function.update_of_ne hne ..
  have hself : (v.move k (.take t)).enabled t.id = true := Function.update_self ..
  have hmode : ∀ {id m}, id ≠ t.id → (v.move k (.take t)).Mode id m → v.Mode id m := by
    rintro id m hne (⟨k', u, hu, hid, hm⟩ | ⟨hno, hm⟩)
    · rcases htaking hu with ⟨-, rfl⟩ | hold
      · exact absurd hid.symm hne
      · exact .inl ⟨k', u, hold, hid, hm⟩
    · refine .inr ⟨fun k' u hu => ?_, hm⟩
      have hk : k' ≠ k := by
        rintro rfl
        rw [hfree] at hu
        exact absurd hu (by simp)
      exact hno k' u ((Function.update_of_ne hk ..).trans hu)
  have hmodet : ∀ {m}, (v.move k (.take t)).Mode t.id m → m = t.st := by
    rintro m (⟨k', u, hu, hid, hm⟩ | ⟨hno, -⟩)
    · rcases htaking hu with ⟨-, rfl⟩ | hold
      · exact hm.symm
      · exact absurd hid (hnobody k' u hold)
    · exact absurd rfl (hno k t (Function.update_self ..))
  have hne := pairOf_ne hlt
  refine ⟨?_, ?_, agree_of (x := t.id) ?_ ?_, ?_, h.once, ?_⟩
  · intro k' u hu
    rcases htaking hu with ⟨-, rfl⟩ | hold
    · exact ⟨hself, hlt⟩
    · rw [henabled (hnobody k' u hold)]
      exact h.on k' u hold
  · intro k1 k2 u1 u2 hu1 hu2 heq
    rcases htaking hu1 with ⟨h1, rfl⟩ | hold1
    · rcases htaking hu2 with ⟨h2, -⟩ | hold2
      · exact h1.trans h2.symm
      · exact absurd heq.symm (hnobody k2 u2 hold2)
    · rcases htaking hu2 with ⟨-, rfl⟩ | hold2
      · exact absurd heq (hnobody k1 u1 hold1)
      · exact h.one k1 k2 u1 u2 hold1 hold2 heq
  · intro id hid h1 h2 he he' m m' hm hm'
    rw [henabled h1] at he
    rw [henabled h2] at he'
    exact h.agree id hid he he' m m' (hmode h1 hm) (hmode h2 hm')
  · intro _ _ he' m m' hm hm'
    rw [henabled hne] at he'
    rw [hmodet hm]
    rcases hmode hne hm' with ⟨k', u, hu, hid, hst⟩ | ⟨hno, hst⟩
    · rw [← hst]
      exact ((hpair he').1 k' u hu hid).symm
    · rw [← hst]
      exact ((hpair he').2 (fun k' u hu hid => absurd hid (hno k' u hu))).symm
  · intro k' u hu hby he'
    rcases htaking hu with ⟨-, rfl⟩ | hold
    · rw [henabled hne] at he'
      exact hown hby he'
    · by_cases hp : pairOf n u.id = t.id
      · -- the pair of a queue that `qdma_queue_config` is about to configure
        have hlt' := (h.on k' u hold).2
        have hback : pairOf n t.id = u.id := hp ▸ pairOf_pairOf hlt'
        have hon := (h.on k' u hold).1
        obtain ⟨hst, hno⟩ := hpair (hback.symm ▸ hon)
        have hut := hst k' u hold hback.symm
        rw [hut, ← hback]
        refine hno (fun k'' w hw hid => ?_)
        rw [hback] at hid
        have hk := h.one k'' k' w u hw hold hid
        rw [hk, hold] at hw
        rw [← Option.some.inj hw]
        exact hby
      · rw [henabled hp] at he'
        exact h.kept k' u hold hby he'
  · rintro id (hoff' | ⟨k', u, hu, rfl⟩)
    · by_cases hid : id = t.id
      · rw [hid, hself] at hoff'
        exact absurd hoff' (by decide)
      · rw [henabled hid] at hoff'
        exact h.mine id (.inl hoff')
    · rcases htaking hu with ⟨-, rfl⟩ | hold
      · exact h.mine u.id (.inl hoff)
      · exact h.mine u.id (.inr ⟨k', u, hold, rfl⟩)

/-- A call that has taken a queue lets go of it. -/
theorem taking_released {v : PairView} {k k' : ℕ} {u : Taking}
    (hu : Function.update v.taking k none k' = some u) : k' ≠ k ∧ v.taking k' = some u := by
  by_cases hk : k' = k
  · rw [hk, Function.update_self] at hu
    exact absurd hu (by simp)
  · rw [Function.update_of_ne hk] at hu
    exact ⟨hk, hu⟩

theorem PairInv.configure {n : ℕ} {v : PairView} (h : PairInv n v) {k : ℕ} {t : Taking}
    (ht : v.taking k = some t) : PairInv n (v.move k (.configure t)) := by
  have hother : ∀ {k' u}, v.taking k' = some u → k' ≠ k → u.id ≠ t.id :=
    fun hu hk heq => hk (h.one _ _ _ _ hu ht heq)
  -- the mode of a queue taken was settled when it was taken
  have hmode : ∀ {id m}, (v.move k (.configure t)).Mode id m → v.Mode id m := by
    rintro id m (⟨k', u, hu, hid, hm⟩ | ⟨hno, hm⟩)
    · exact .inl ⟨k', u, (taking_released hu).2, hid, hm⟩
    · by_cases hid : id = t.id
      · subst hid
        rw [show (v.move k (.configure t)).st t.id = t.st from Function.update_self ..] at hm
        exact .inl ⟨k, t, ht, rfl, hm⟩
      · rw [show (v.move k (.configure t)).st id = v.st id from Function.update_of_ne hid ..] at hm
        refine .inr ⟨fun k' u hu heq => ?_, hm⟩
        have hk : k' ≠ k := by
          rintro rfl
          rw [ht] at hu
          exact hid (heq.symm.trans (congrArg Taking.id (Option.some.inj hu.symm)))
        exact hno k' u ((Function.update_of_ne hk ..).trans hu) heq
  -- a queue that is taken has not been given out
  have hzero := h.mine t.id (.inr ⟨k, t, ht, rfl⟩)
  refine ⟨?_, ?_, ?_, ?_, ?_, ?_⟩
  · exact fun k' u hu => h.on k' u (taking_released hu).2
  · exact fun k1 k2 u1 u2 hu1 hu2 =>
      h.one k1 k2 u1 u2 (taking_released hu1).2 (taking_released hu2).2
  · exact fun id hlt he he' m m' hm hm' => h.agree id hlt he he' m m' (hmode hm) (hmode hm')
  · intro k' u hu hby he'
    obtain ⟨hk, hold⟩ := taking_released hu
    show Function.update v.st t.id t.st u.id = u.st
    rw [Function.update_of_ne (hother hold hk)]
    exact h.kept k' u hold hby he'
  · intro id
    show Function.update v.given t.id (v.given t.id + 1) id ≤ 1
    by_cases hid : id = t.id
    · rw [hid, Function.update_self]
      exact Nat.succ_le_succ (Nat.le_of_eq hzero)
    · rw [Function.update_of_ne hid]
      exact h.once id
  · intro id hor
    show Function.update v.given t.id (v.given t.id + 1) id = 0
    have hid : id ≠ t.id := by
      rintro rfl
      rcases hor with hoff | ⟨k', u, hu, heq⟩
      · rw [show (v.move k (.configure t)).enabled t.id = v.enabled t.id from rfl,
          (h.on k t ht).1] at hoff
        exact absurd hoff (by decide)
      · obtain ⟨hk, hold⟩ := taking_released hu
        exact hother hold hk heq
    rw [Function.update_of_ne hid]
    refine h.mine id (hor.imp (fun hoff => hoff) ?_)
    rintro ⟨k', u, hu, heq⟩
    exact ⟨k', u, (taking_released hu).2, heq⟩

theorem PairInv.leave {n : ℕ} {v : PairView} (h : PairInv n v) {k : ℕ} {t : Taking}
    (ht : v.taking k = some t) (hfits : (Move.leave t).Fits n v) :
    PairInv n (v.move k (.leave t)) := by
  have hother : ∀ {k' u}, v.taking k' = some u → k' ≠ k → u.id ≠ t.id :=
    fun hu hk heq => hk (h.one _ _ _ _ hu ht heq)
  have hmode : ∀ {id m}, id ≠ t.id → (v.move k (.leave t)).Mode id m → v.Mode id m := by
    rintro id m hne (⟨k', u, hu, hid, hm⟩ | ⟨hno, hm⟩)
    · exact .inl ⟨k', u, (taking_released hu).2, hid, hm⟩
    · refine .inr ⟨fun k' u hu heq => ?_, hm⟩
      have hk : k' ≠ k := by
        rintro rfl
        rw [ht] at hu
        exact hne (heq.symm.trans (congrArg Taking.id (Option.some.inj hu.symm)))
      exact hno k' u ((Function.update_of_ne hk ..).trans hu) heq
  have hmodet : ∀ {m}, (v.move k (.leave t)).Mode t.id m → m = v.st t.id := by
    rintro m (⟨k', u, hu, hid, -⟩ | ⟨-, hm⟩)
    · obtain ⟨hk, hold⟩ := taking_released hu
      exact absurd hid (hother hold hk)
    · exact hm.symm
  refine ⟨?_, ?_, agree_of (x := t.id) ?_ ?_, ?_, h.once, ?_⟩
  · exact fun k' u hu => h.on k' u (taking_released hu).2
  · exact fun k1 k2 u1 u2 hu1 hu2 =>
      h.one k1 k2 u1 u2 (taking_released hu1).2 (taking_released hu2).2
  · exact fun id hlt h1 h2 he he' m m' hm hm' =>
      h.agree id hlt he he' m m' (hmode h1 hm) (hmode h2 hm')
  · intro hlt _ he' m m' hm hm'
    rw [hmodet hm]
    rcases hmode (pairOf_ne hlt) hm' with ⟨k', u, hu, hid, hst⟩ | ⟨hno, hst⟩
    · rw [← hst]
      exact ((hfits he').1 k' u hu hid).symm
    · rw [← hst]
      exact ((hfits he').2 (fun k' u hu hid => absurd hid (hno k' u hu))).symm
  · exact fun k' u hu => h.kept k' u (taking_released hu).2
  · rintro id (hoff | ⟨k', u, hu, heq⟩)
    · exact h.mine id (.inl hoff)
    · exact h.mine id (.inr ⟨k', u, (taking_released hu).2, heq⟩)

theorem PairInv.disable {n : ℕ} {v : PairView} (h : PairInv n v) (k : ℕ) {x : ℕ}
    (hfits : (Move.disable x).Fits n v) : PairInv n (v.move k (.disable x)) := by
  have hsub : ∀ {id}, (v.move k (.disable x)).enabled id = true → v.enabled id = true := by
    intro id he
    by_cases hid : id = x
    · subst hid
      rw [show (v.move k (.disable id)).enabled id = false from Function.update_self ..] at he
      exact absurd he (by decide)
    · rw [show (v.move k (.disable x)).enabled id = v.enabled id from
        Function.update_of_ne hid ..] at he
      exact he
  refine ⟨?_, h.one, ?_, ?_, ?_, ?_⟩
  · intro k' u hu
    refine ⟨?_, (h.on k' u hu).2⟩
    show Function.update v.enabled x false u.id = true
    rw [Function.update_of_ne (hfits k' u hu)]
    exact (h.on k' u hu).1
  · exact fun id hlt he he' => h.agree id hlt (hsub he) (hsub he')
  · exact fun k' u hu hby he' => h.kept k' u hu hby (hsub he')
  · intro id
    show Function.update v.given x 0 id ≤ 1
    by_cases hid : id = x
    · rw [hid, Function.update_self]
      exact Nat.zero_le 1
    · rw [Function.update_of_ne hid]
      exact h.once id
  · intro id hor
    show Function.update v.given x 0 id = 0
    by_cases hid : id = x
    · rw [hid, Function.update_self]
    · rw [Function.update_of_ne hid]
      refine h.mine id (hor.imp_left (fun hoff => ?_))
      rw [show (v.move k (.disable x)).enabled id = v.enabled id from
        Function.update_of_ne hid ..] at hoff
      exact hoff

/-- **One move.** -/
theorem PairInv.move {n : ℕ} {v : PairView} (h : PairInv n v) {k : ℕ} {a : Move}
    (hcan : a.Can n v k) (hfits : a.Fits n v) : PairInv n (v.move k a) := by
  cases a with
  | idle => exact h
  | take t => exact h.take hcan hfits
  | configure t => exact h.configure hcan
  | leave t => exact h.leave hcan hfits
  | disable id => exact h.disable k hfits

end Qdma
