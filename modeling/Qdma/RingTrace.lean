/-
# Traces of the writes to a descriptor ring

A producer fills the slots of a ring in memory, field by field, and publishes what it has filled
by writing its index to a doorbell register.  The consumer writes to memory how far it has come,
and the producer takes the index over.  `Ev` are these writes and `Board` is what they leave
behind.

A trace is in order if every write of it is `Ok` where it stands: no store goes to a slot between
the consumer index and the last index published, and every slot a doorbell publishes has all its
fields stored since the doorbell before.  `Run.final` turns this into the law of the trace as a
whole, `Final`: a descriptor has its final value when it is published, and keeps it until the
consumer has reported it.
-/
import Qdma.Exec
import Qdma.RingIndex

namespace RingTrace

open Exec RingIndex

variable {α ω ι : Type*}

/-- A write. -/
inductive Ev (ω : Type*) where
  /-- The producer stores to a field of the slot `i`. -/
  | store (i : ℕ) (w : ω)
  /-- The producer writes its index to the doorbell register. -/
  | bell (p : ℕ)
  /-- The consumer writes its index to memory. -/
  | report (c : ℕ)
  /-- The producer sets its own copy of the consumer index. -/
  | credit (c : ℕ)

/-- A ring of `n` slots: what a store does to a slot, which field it goes to, and the fields
every descriptor is made of. -/
structure Ring (α ω ι : Type*) where
  n : ℕ
  act : ω → α → α
  field : ω → ι
  need : List ι

/-- Memory and registers, and the fields stored since the last doorbell. -/
structure Board (α ι : Type*) where
  slot : ℕ → α
  pub : ℕ
  wb : ℕ
  cidx : ℕ
  fresh : List (ℕ × ι) := []

/-- The index `i` lies from `a` (included) to `b` (excluded). -/
def Between (n a b i : ℕ) : Prop := i < n ∧ dist n a i < dist n a b

namespace Ring

variable (R : Ring α ω ι)

/-- The effect of a write. -/
def step (b : Board α ι) : Ev ω → Board α ι
  | .store i w =>
      { b with
        slot := Function.update b.slot i (R.act w (b.slot i))
        fresh := (i, R.field w) :: b.fresh }
  | .bell p => { b with pub := p, fresh := [] }
  | .report c => { b with wb := c }
  | .credit c => { b with cidx := c }

/-- The slot is published and its descriptor not known to be consumed. -/
def InFlight (b : Board α ι) (i : ℕ) : Prop := Between R.n b.cidx b.pub i

/-- A write in order. -/
def Ok (b : Board α ι) : Ev ω → Prop
  | .store i _ => ¬ R.InFlight b i
  | .bell p => p < R.n ∧ dist R.n b.cidx b.pub + dist R.n b.pub p < R.n ∧
      ∀ i, Between R.n b.pub p i → ∀ f ∈ R.need, (i, f) ∈ b.fresh
  | .report c => c < R.n
  | .credit c => c = b.wb

/-- The board after a trace. -/
def after (b : Board α ι) (tr : List (Ev ω)) : Board α ι := tr.foldl R.step b

/-- **Descriptors are final before they are published.**  At every doorbell the slots newly
covered have all their fields stored since the doorbell before, they are in flight from then on,
and hold the value they have at the doorbell for as long as they stay so; nothing is stored to a
slot in flight; and slots cease to be in flight only by an index the consumer has reported. -/
structure Final (b₀ : Board α ι) (tr : List (Ev ω)) : Prop where
  complete : ∀ pre p post, tr = pre ++ .bell p :: post →
    ∀ i, Between R.n (R.after b₀ pre).pub p i →
      (∀ f ∈ R.need, (i, f) ∈ (R.after b₀ pre).fresh) ∧
        R.InFlight (R.after b₀ (pre ++ [.bell p])) i
  final : ∀ pre p mid post, tr = pre ++ .bell p :: (mid ++ post) →
    ∀ i, Between R.n (R.after b₀ pre).pub p i →
      (∀ xs ys, mid = xs ++ ys → R.InFlight (R.after b₀ (pre ++ .bell p :: xs)) i) →
        (R.after b₀ (pre ++ .bell p :: mid)).slot i = (R.after b₀ pre).slot i
  quiet : ∀ pre i w post, tr = pre ++ .store i w :: post → ¬ R.InFlight (R.after b₀ pre) i
  credit : ∀ pre c post, tr = pre ++ .credit c :: post → c = (R.after b₀ pre).wb

/-! ## Boards -/

theorem after_append (b : Board α ι) (xs ys : List (Ev ω)) :
    R.after b (xs ++ ys) = R.after (R.after b xs) ys := List.foldl_append ..

theorem after_cons (b : Board α ι) (e : Ev ω) (tr : List (Ev ω)) :
    R.after b (e :: tr) = R.after (R.step b e) tr := rfl

/-- Stores are all that changes a slot, and only their own. -/
theorem step_slot {b : Board α ι} {e : Ev ω} {i : ℕ} (h : ∀ w, e ≠ .store i w) :
    (R.step b e).slot i = b.slot i := by
  cases e with
  | store j w =>
      refine Function.update_of_ne ?_ _ _
      rintro rfl
      exact h w rfl
  | bell p => rfl
  | report c => rfl
  | credit c => rfl

end Ring

/-! ## Stretches of a ring -/

theorem between_iff {n a b i : ℕ} (ha : a < n) :
    Between n a b i ↔ ∃ j < dist n a b, i = adv n a j := by
  constructor
  · rintro ⟨hi, hlt⟩
    exact ⟨dist n a i, hlt, (adv_dist ha hi).symm⟩
  · rintro ⟨j, hj, rfl⟩
    have hn : dist n a b < n := dist_lt (by omega)
    exact ⟨adv_lt (by omega), by rwa [dist_adv ha (by omega)]⟩

/-- A slot on the stretch from `p` to `q` is on the one from `c`, if they do not overlap. -/
theorem Between.behind {n c p q i : ℕ} (hc : c < n) (hp : p < n) (hq : q < n)
    (hroom : dist n c p + dist n p q < n) (h : Between n p q i) : Between n c q i := by
  have hlong := dist_adv_right hc hp hroom
  have hi := dist_adv_right (k := dist n p i) hc hp (by have := h.2; omega)
  rw [adv_dist hp hq] at hlong
  rw [adv_dist hp h.1] at hi
  refine ⟨h.1, ?_⟩
  rw [hlong, hi]
  exact Nat.add_lt_add_left h.2 _

/-- The next slots to fill are not among those in flight. -/
theorem not_between_adv {n c p j : ℕ} (hc : c < n) (hp : p < n) (hj : dist n c p + j < n) :
    ¬ Between n c p (adv n p j) := by
  rintro ⟨-, hlt⟩
  rw [dist_adv_right hc hp hj] at hlt
  omega

/-! ## Traces in order -/

section Order

variable {R : Ring α ω ι} {b₀ b : Board α ι} {tr : List (Ev ω)}

/-- The indices of a board lie on the ring. -/
structure Ring.OnRing (R : Ring α ω ι) (b : Board α ι) : Prop where
  pub_lt : b.pub < R.n
  wb_lt : b.wb < R.n
  cidx_lt : b.cidx < R.n

theorem Ring.OnRing.step {e : Ev ω} (h : R.OnRing b) (hok : R.Ok b e) : R.OnRing (R.step b e) := by
  cases e with
  | store i w => exact ⟨h.pub_lt, h.wb_lt, h.cidx_lt⟩
  | bell p => exact ⟨hok.1, h.wb_lt, h.cidx_lt⟩
  | report c => exact ⟨h.pub_lt, hok, h.cidx_lt⟩
  | credit c => exact ⟨h.pub_lt, h.wb_lt, by rw [show c = b.wb from hok]; exact h.wb_lt⟩

/-- A slot keeps its value while it is in flight. -/
theorem kept_in_flight (b : Board α ι) {mid : List (Ev ω)}
    (hquiet : ∀ xs i w ys, mid = xs ++ .store i w :: ys → ¬ R.InFlight (R.after b xs) i) {i : ℕ}
    (hfly : ∀ xs ys, mid = xs ++ ys → R.InFlight (R.after b xs) i) :
    (R.after b mid).slot i = b.slot i := by
  induction mid using List.reverseRecOn with
  | nil => rfl
  | append_singleton mid e ih =>
      have hlast : (R.after b (mid ++ [e])).slot i = (R.after b mid).slot i := by
        rw [R.after_append]
        refine R.step_slot fun w he => ?_
        rw [he] at hquiet hfly
        exact hquiet mid i w [] rfl (hfly mid _ rfl)
      rw [hlast]
      refine ih ?_ ?_
      · rintro xs j w ys rfl
        exact hquiet xs j w (ys ++ [e]) (by simp)
      · rintro xs ys rfl
        exact hfly xs (ys ++ [e]) (List.append_assoc ..)

/-- **A trace whose writes are in order obeys the law.** -/
theorem Ring.Final.of_run (h0 : R.OnRing b₀) (h : Run R.step R.Ok b₀ tr b) : R.Final b₀ tr := by
  have hring : ∀ pre e post, tr = pre ++ e :: post → R.OnRing (R.after b₀ pre) := by
    rintro pre e post heq
    exact (h.cut heq).1.invariant (I := R.OnRing) h0 (fun _ _ hb hok => hb.step hok)
  have hquiet : ∀ pre i w post, tr = pre ++ .store i w :: post →
      ¬ R.InFlight (R.after b₀ pre) i := fun pre i w post heq => (h.cut heq).2
  refine ⟨?_, ?_, hquiet, fun pre c post heq => (h.cut heq).2⟩
  · rintro pre p post heq i hi
    obtain ⟨hp, hroom, hfresh⟩ := (h.cut heq).2
    have hon := hring pre _ post heq
    refine ⟨hfresh i hi, ?_⟩
    rw [R.after_append]
    exact hi.behind hon.cidx_lt hon.pub_lt hp hroom
  · rintro pre p mid post heq i hi hfly
    rw [R.after_append, R.after_cons]
    have hsplit : ∀ xs, R.after b₀ (pre ++ .bell p :: xs)
        = R.after (R.step (R.after b₀ pre) (.bell p)) xs := by
      intro xs
      rw [R.after_append, R.after_cons]
    rw [kept_in_flight]
    · rfl
    · rintro xs j w ys rfl
      rw [← hsplit]
      exact hquiet _ j w (ys ++ post) (by rw [heq]; simp)
    · rintro xs ys hxs
      rw [← hsplit]
      exact hfly xs ys hxs

/-- The board after some stores to the slot `i`. -/
def Ring.stored (R : Ring α ω ι) (b : Board α ι) (i : ℕ) (ws : List ω) : Board α ι :=
  { b with
    slot := Function.update b.slot i (ws.foldl (fun x w => R.act w x) (b.slot i))
    fresh := ws.reverse.map (fun w => (i, R.field w)) ++ b.fresh }

/-- Stores to a slot that is not in flight are in order. -/
theorem run_stores {i : ℕ} (h : ¬ R.InFlight b i) (ws : List ω) :
    Run R.step R.Ok b (ws.map (.store i)) (R.stored b i ws) := by
  induction ws using List.reverseRecOn with
  | nil =>
      have hnil : R.stored b i [] = b := by
        unfold Ring.stored
        rw [List.foldl_nil, Function.update_eq_self]
        rfl
      rw [hnil]
      exact Run.nil
  | append_singleton ws w ih =>
      have hone : R.stored b i (ws ++ [w]) = R.step (R.stored b i ws) (.store i w) := by
        unfold Ring.stored Ring.step
        simp only [Function.update_self, Function.update_idem, List.foldl_append, List.foldl_cons,
          List.foldl_nil, List.reverse_append, List.reverse_singleton, List.map_cons,
          List.cons_append, List.nil_append]
      rw [List.map_append, List.map_singleton, hone]
      exact Run.snoc ih h

/-- What was stored counts as stored. -/
theorem mem_stored {i : ℕ} {ws : List ω} {w : ω} (h : w ∈ ws) :
    (i, R.field w) ∈ (R.stored b i ws).fresh := by
  refine List.mem_append_left _ (List.mem_map.mpr ⟨w, ?_, rfl⟩)
  exact List.mem_reverse.mpr h

end Order

end RingTrace
