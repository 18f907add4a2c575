/-
# Threads that share a world

Several threads of the kind `Sleeper` describes work in one world.  What one of them does to an item
is for the others one more thing that happens and may make work for them: each thread is woken by
what the others serve as by anything else.

`Floor.inv_run`: in every run, in whatever order the threads and the rest take their steps, each
thread keeps its own law.  So no thread of a crew that has come to rest has work (`crew_at_rest`).
-/
import Qdma.Sleeper

namespace Sleeper

open Exec

variable {τ σ ι ε : Type*}

/-- Threads and what happens in their world; serving an item is one of the things that happen. -/
structure Crew (τ σ ι ε : Type*) where
  items : τ → σ → List ι
  work : τ → ι → σ → Bool
  serve : τ → ι → ε
  event : ε → σ → σ
  signal : τ → ε → σ → Signal
  locks : τ → ε → Bool

/-- One thread of the crew, to which what the others do is part of the world. -/
def Crew.shop (C : Crew τ σ ι ε) (t : τ) : Shop σ ι ε where
  items := C.items t
  work := C.work t
  serve i w := C.event (C.serve t i) w
  env e w := (C.event e w, C.signal t e w)
  locks := C.locks t

/-- A thread without its world. -/
structure Hand (ι : Type*) where
  pc : Pc ι := .top
  awake : Bool := true
  owed : ℕ := 0
  stop : Bool := false

def Hand.state (h : Hand ι) (w : σ) : State σ ι :=
  { world := w, pc := h.pc, awake := h.awake, owed := h.owed, stop := h.stop }

def State.hand (s : State σ ι) : Hand ι :=
  { pc := s.pc, awake := s.awake, owed := s.owed, stop := s.stop }

/-- The world and the threads in it. -/
structure Floor (τ σ ι : Type*) where
  world : σ
  hands : τ → Hand ι := fun _ => {}

/-- Thread `t` and its world. -/
def Floor.view (f : Floor τ σ ι) (t : τ) : State σ ι := (f.hands t).state f.world

/-- What can happen: a step of a thread, something else, a wake-up that arrives, one that nobody
owed, and the order to stop. -/
inductive CrewAct (τ ε : Type*) where
  | own (t : τ)
  | env (e : ε)
  | arrive (t : τ)
  | poke (t : τ)
  | stop (t : τ)

/-- What the thread serves with its next step. -/
def Pc.next : Pc ι → Option ι
  | .serving (i :: _) => some i
  | _ => none

/-- Thread `t` when `e` happens. -/
def Floor.hears (C : Crew τ σ ι ε) (f : Floor τ σ ι) (e : ε) (t : τ) : Hand ι :=
  ((f.view t).step (C.shop t) (.env e)).hand

/-- Things happen that are legal for every thread; only a wake-up on its way arrives. -/
def Floor.Ok (C : Crew τ σ ι ε) (legal : τ → ε → σ → Prop) (f : Floor τ σ ι) :
    CrewAct τ ε → Prop
  | .env e => ∀ t, (f.view t).Ok (C.shop t) (legal t) (.env e)
  | .arrive t => (f.view t).Ok (C.shop t) (legal t) .arrive
  | _ => True

/-- **What a crew keeps to**: each thread can rely on the world, and what one serves is legal for
the others and needs no lock of theirs. -/
structure Crew.Law (C : Crew τ σ ι ε) (J : σ → Prop) (legal : τ → ε → σ → Prop) : Prop where
  shop : ∀ t, (C.shop t).Law J (legal t)
  serve : ∀ t t' i w, t ≠ t' → J w → i ∈ C.items t' w →
    legal t (C.serve t' i) w ∧ C.locks t (C.serve t' i) = false

/-- **The law of a crew**: each thread keeps its own, and what it serves is on its list. -/
structure Floor.Inv (C : Crew τ σ ι ε) (J : σ → Prop) (f : Floor τ σ ι) : Prop where
  each : ∀ t, (f.view t).Inv (C.shop t) J
  listed : ∀ t left, (f.hands t).pc = .serving left → ∀ i ∈ left, i ∈ C.items t f.world

variable {C : Crew τ σ ι ε} {J : σ → Prop} {legal : τ → ε → σ → Prop} {f : Floor τ σ ι}

@[simp] theorem state_hand (s : State σ ι) : s.hand.state s.world = s := rfl

/-- A step of a thread changes the world where it serves. -/
theorem own_world (P : Shop σ ι ε) (s : State σ ι) :
    (s.own P).world = (s.pc.next.map (fun i => P.serve i s.world)).getD s.world := by
  obtain ⟨w, pc, awake, owed, stop⟩ := s
  cases pc with
  | looking left =>
      cases left with
      | nil => rfl
      | cons i left =>
          unfold State.own
          simp only
          split_ifs <;> rfl
  | serving left => cases left <;> rfl
  | _ => rfl

/-! ## What the threads maintain -/

/-- What a thread goes on to serve was on its list. -/
theorem own_serving {P : Shop σ ι ε} {s : State σ ι} {left : List ι}
    (h : (s.own P).pc = .serving left) :
    (∃ i, s.pc = .serving (i :: left)) ∨ left = P.items s.world ∧ (s.own P).world = s.world := by
  obtain ⟨w, pc, awake, owed, stop⟩ := s
  cases pc with
  | top => cases stop <;> cases h
  | passed => cases h
  | looking left' =>
      cases left' with
      | nil => cases h
      | cons i left' =>
          unfold State.own at h ⊢
          by_cases hw : P.work i w = true
          · simp only [hw, if_true, Pc.serving.injEq] at h ⊢
            exact .inr ⟨h.symm, trivial⟩
          · simp only [hw, Bool.false_eq_true, if_false] at h
            cases h
  | idle =>
      cases awake with
      | true =>
          cases h
          exact .inr ⟨rfl, rfl⟩
      | false => cases h
  | asleep =>
      cases awake with
      | true =>
          cases h
          exact .inr ⟨rfl, rfl⟩
      | false => cases h
  | serving left' =>
      cases left' with
      | nil => cases h
      | cons i left' =>
          cases h
          exact .inl ⟨i, rfl⟩
  | gone => cases h

/-- What happens to a busy thread leaves its list as it is. -/
theorem Crew.Law.items_env (hlaw : C.Law J legal) {t : τ} {e : ε}
    (hok : (f.view t).Ok (C.shop t) (legal t) (.env e)) {left : List ι}
    (hpc : (f.hands t).pc = .serving left) : C.items t (C.event e f.world) = C.items t f.world := by
  refine (hlaw.shop t).items_env e f.world hok.1 ?_
  rw [← Bool.not_eq_true]
  intro hlocks
  have hbusy := hok.2 hlocks
  change (f.hands t).pc.busy = false at hbusy
  rw [hpc] at hbusy
  cases hbusy

/-- What a thread serves is legal for the others. -/
theorem Floor.Inv.serve_ok (hlaw : C.Law J legal) (h : f.Inv C J) {t t' : τ} (hne : t' ≠ t) {i : ι}
    (hi : (f.hands t).pc.next = some i) :
    (f.view t').Ok (C.shop t') (legal t') (.env (C.serve t i)) := by
  have hmem : i ∈ C.items t f.world := by
    cases hpc : (f.hands t).pc with
    | serving left =>
        rw [hpc] at hi
        cases left with
        | nil => cases hi
        | cons j left =>
            cases hi
            exact h.listed t _ hpc _ (List.mem_cons_self ..)
    | _ => rw [hpc] at hi; cases hi
  obtain ⟨hlegal, hlocks⟩ := hlaw.serve t' t i f.world hne (h.each t).world hmem
  refine ⟨hlegal, fun hl => ?_⟩
  change C.locks t' (C.serve t i) = true at hl
  rw [hlocks] at hl
  cases hl

/-- Threads that have just been started. -/
theorem Floor.inv_start (C : Crew τ σ ι ε) {w : σ} (hw : J w) :
    ({ world := w } : Floor τ σ ι).Inv C J :=
  ⟨fun t => Sleeper.inv_start (C.shop t) hw, fun _ _ hpc => by cases hpc⟩

/-- It sleeps, and nobody is about to wake it. -/
structure Hand.AtRest (h : Hand ι) : Prop where
  pc : h.pc = .asleep
  awake : h.awake = false
  owed : h.owed = 0

/-- **No thread at rest has work.** -/
theorem crew_at_rest (h : f.Inv C J) {t : τ} (hrest : (f.hands t).AtRest) :
    ∀ i ∈ C.items t f.world, C.work t i f.world = false :=
  quiet_asleep (h.each t) hrest.pc hrest.awake hrest.owed

/-! ## Steps of a crew -/

section Step

variable [DecidableEq τ]

/-- A step of the crew: the others hear of what a thread serves. -/
def Floor.step (C : Crew τ σ ι ε) (f : Floor τ σ ι) : CrewAct τ ε → Floor τ σ ι
  | .own t =>
      { world := ((f.view t).own (C.shop t)).world
        hands := fun t' =>
          if t' = t then ((f.view t).own (C.shop t)).hand
          else ((f.hands t).pc.next.map (fun i => f.hears C (C.serve t i) t')).getD (f.hands t') }
  | .env e => { world := C.event e f.world, hands := f.hears C e }
  | .arrive t =>
      { f with
        hands := Function.update f.hands t
          ((f.view t).step (C.shop t) .arrive).hand }
  | .poke t =>
      { f with hands := Function.update f.hands t ((f.view t).step (C.shop t) .poke).hand }
  | .stop t =>
      { f with hands := Function.update f.hands t ((f.view t).step (C.shop t) .stop).hand }

theorem view_env (e : ε) (t : τ) :
    (f.step C (.env e)).view t = (f.view t).step (C.shop t) (.env e) := rfl

theorem view_own_self (t : τ) : (f.step C (.own t)).view t = (f.view t).own (C.shop t) := by
  unfold Floor.view Floor.step
  simp only [if_true]
  exact state_hand _

/-- To the others a step of a thread is what it serves, or nothing. -/
theorem view_own_other {t t' : τ} (hne : t' ≠ t) :
    (f.step C (.own t)).view t' = ((f.hands t).pc.next.map
      (fun i => (f.view t').step (C.shop t') (.env (C.serve t i)))).getD (f.view t') := by
  have hworld : (f.step C (.own t)).world = ((f.hands t).pc.next.map
      (fun i => C.event (C.serve t i) f.world)).getD f.world := own_world _ (f.view t)
  have hhand : (f.step C (.own t)).hands t' = ((f.hands t).pc.next.map
      (fun i => f.hears C (C.serve t i) t')).getD (f.hands t') := if_neg hne
  unfold Floor.view
  rw [hworld, hhand]
  cases (f.hands t).pc.next <;> rfl

theorem view_update_self {t : τ} {s : State σ ι} (hs : s.world = f.world) :
    ({ f with hands := Function.update f.hands t s.hand } : Floor τ σ ι).view t = s := by
  unfold Floor.view
  simp only [Function.update_self, ← hs, state_hand]

theorem view_update_ne {t t' : τ} (hne : t' ≠ t) (h : Hand ι) :
    ({ f with hands := Function.update f.hands t h } : Floor τ σ ι).view t' = f.view t' := by
  unfold Floor.view
  simp only [Function.update_of_ne hne]

theorem Floor.Inv.env (hlaw : C.Law J legal) (h : f.Inv C J) {e : ε}
    (hok : f.Ok C legal (.env e)) : (f.step C (.env e)).Inv C J := by
  refine ⟨fun t => ?_, fun t left hpc i hi => ?_⟩
  · rw [view_env]
    exact (h.each t).step (hlaw.shop t) (hok t)
  · have hmem := h.listed t left hpc i hi
    show i ∈ C.items t (C.event e f.world)
    rw [hlaw.items_env (hok t) hpc]
    exact hmem

theorem Floor.Inv.own (hlaw : C.Law J legal) (h : f.Inv C J) (t : τ) :
    (f.step C (.own t)).Inv C J := by
  have hview : ∀ t', ((f.step C (.own t)).view t').Inv (C.shop t') J := by
    intro t'
    by_cases hne : t' = t
    · rw [hne, view_own_self]
      exact (h.each t).own (hlaw.shop t)
    · rw [view_own_other hne]
      cases hnext : (f.hands t).pc.next with
      | none => exact h.each t'
      | some i => exact (h.each t').step (hlaw.shop t') (h.serve_ok hlaw hne hnext)
  refine ⟨hview, fun t' left hpc i hi => ?_⟩
  have hworld : (f.step C (.own t)).world = ((f.hands t).pc.next.map
      (fun i => C.event (C.serve t i) f.world)).getD f.world := own_world _ (f.view t)
  by_cases hne : t' = t
  · subst hne
    have hpc' : ((f.view t').own (C.shop t')).pc = .serving left := by
      rw [← view_own_self]
      exact hpc
    show i ∈ C.items t' ((f.view t').own (C.shop t')).world
    rcases own_serving hpc' with ⟨j, hserving⟩ | ⟨hleft, hsame⟩
    · have hmem := h.listed t' _ hserving i (List.mem_cons_of_mem _ hi)
      have hkeep : C.items t' (C.event (C.serve t' j) f.world) = C.items t' f.world :=
        (hlaw.shop t').items_serve j f.world
      rw [own_world, hserving]
      show i ∈ C.items t' (C.event (C.serve t' j) f.world)
      rw [hkeep]
      exact hmem
    · rw [hsame]
      rw [hleft] at hi
      exact hi
  · rw [hworld]
    have hhand : (f.step C (.own t)).hands t' = ((f.hands t).pc.next.map
        (fun i => f.hears C (C.serve t i) t')).getD (f.hands t') := if_neg hne
    rw [hhand] at hpc
    cases hnext : (f.hands t).pc.next with
    | none =>
        rw [hnext] at hpc
        exact h.listed t' left hpc i hi
    | some j =>
        rw [hnext] at hpc
        have hmem := h.listed t' left hpc i hi
        show i ∈ C.items t' (C.event (C.serve t j) f.world)
        rw [hlaw.items_env (h.serve_ok hlaw hne hnext) hpc]
        exact hmem

/-- What happens to one thread only, and makes it look again. -/
theorem Floor.Inv.awaken (h : f.Inv C J) {t : τ} {s : State σ ι} (hs : s.world = f.world)
    (hpc : s.pc = (f.hands t).pc) (hinv : s.Inv (C.shop t) J) :
    ({ f with hands := Function.update f.hands t s.hand } : Floor τ σ ι).Inv C J := by
  refine ⟨fun t' => ?_, fun t' left hl i hi => ?_⟩
  · by_cases hne : t' = t
    · rw [hne, view_update_self hs]
      exact hinv
    · rw [view_update_ne hne]
      exact h.each t'
  · by_cases hne : t' = t
    · subst hne
      simp only [Function.update_self] at hl
      exact h.listed t' left (hpc.symm.trans hl) i hi
    · simp only [Function.update_of_ne hne] at hl
      exact h.listed t' left hl i hi

/-- **Every step of the crew** keeps the law of each thread. -/
theorem Floor.Inv.step (hlaw : C.Law J legal) (h : f.Inv C J) {a : CrewAct τ ε}
    (hok : f.Ok C legal a) : (f.step C a).Inv C J := by
  cases a with
  | own t => exact h.own hlaw t
  | env e => exact h.env hlaw hok
  | arrive t => exact h.awaken rfl rfl ((h.each t).step (hlaw.shop t) hok)
  | poke t => exact h.awaken rfl rfl ((h.each t).step (hlaw.shop t) (a := .poke) trivial)
  | stop t => exact h.awaken rfl rfl ((h.each t).step (hlaw.shop t) (a := .stop) trivial)

/-- **Every run** in which things happen that are legal for all. -/
theorem Floor.inv_run (hlaw : C.Law J legal) {ok : Floor τ σ ι → CrewAct τ ε → Prop}
    (hok : ∀ f a, ok f a → f.Ok C legal a) {w : σ} (hw : J w) {acts : List (CrewAct τ ε)}
    (hrun : Run (Floor.step C) ok { world := w } acts f) : f.Inv C J :=
  hrun.invariant (Floor.inv_start C hw) (fun _ _ h ha => h.step hlaw (hok _ _ ha))

end Step

end Sleeper
