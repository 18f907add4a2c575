/-
# The ring index helpers

`ring_idx_incr`, `ring_idx_decr` and `ring_idx_delta` against integer arithmetic modulo the ring
size, for every ring of up to `2³¹` slots and every count up to a full lap.  The helpers are written
a second time with each 32-bit result checked: on such a ring no check fails.  The distance that
`descq_wb_credit` works out for itself is that of `ring_idx_delta`.
-/
import Qdma.H2c
import Qdma.Offline
import Qdma.RxIndex

namespace Qdma

open RingIndex

/-! ## The helpers with their 32-bit results checked -/

/-- The result of an `unsigned int` operation, none where it wraps. -/
def unwrapped (x : ℤ) : Option ℕ :=
  if 0 ≤ x ∧ x < 2 ^ 32 then some x.toNat else none

/-- A sum below `2³²` does not wrap. -/
theorem unwrapped_add {a b : ℕ} (h : a + b < 2 ^ 32) :
    unwrapped ((a : ℤ) + b) = some (a + b) := by
  unfold unwrapped
  rw [if_pos (by omega)]
  rfl

/-- A difference does not wrap when the larger comes first. -/
theorem unwrapped_sub {a b : ℕ} (ha : a < 2 ^ 32) (h : b ≤ a) :
    unwrapped ((a : ℤ) - b) = some (a - b) := by
  unfold unwrapped
  rw [if_pos (by omega), ← Nat.cast_sub h, Int.toNat_natCast]

/-- `ring_idx_delta`, none where a result wraps. -/
def ringIdxDeltaUnwrapped (new old rngsz : ℕ) : Option ℕ :=
  if new ≥ old then unwrapped ((new : ℤ) - old)
  else (unwrapped ((rngsz : ℤ) - old)).bind fun left => unwrapped ((new : ℤ) + left)

@[inherit_doc ringIdxDeltaUnwrapped]
def ringIdxIncrUnwrapped (idx cnt rngsz : ℕ) : Option ℕ :=
  (unwrapped ((idx : ℤ) + cnt)).bind fun idx =>
    if idx ≥ rngsz then unwrapped ((idx : ℤ) - rngsz) else some idx

@[inherit_doc ringIdxDeltaUnwrapped]
def ringIdxDecrUnwrapped (idx cnt rngsz : ℕ) : Option ℕ :=
  if idx ≥ cnt then unwrapped ((idx : ℤ) - cnt)
  else (unwrapped ((cnt : ℤ) - idx)).bind fun short => unwrapped ((rngsz : ℤ) - short)

/-- The distance of `descq_wb_credit`, which it works out before it moves `q->cidx`. -/
def wbDistance (q : Descq) (cidx : ℕ) : ℕ :=
  if cidx = q.cidx then 0
  else if cidx < q.cidx then u32 (u32Sub q.conf.rngsz q.cidx + cidx) else u32Sub cidx q.cidx

/-- The same, none where a result wraps. -/
def wbDistanceUnwrapped (q : Descq) (cidx : ℕ) : Option ℕ :=
  if cidx = q.cidx then some 0
  else if cidx < q.cidx then
    (unwrapped ((q.conf.rngsz : ℤ) - q.cidx)).bind fun left => unwrapped ((left : ℤ) + cidx)
  else unwrapped ((cidx : ℤ) - q.cidx)

/-! ## Closed forms -/

section Ring

variable {n i j k : ℕ}

/-- `ring_idx_decr` goes back by up to one lap. -/
theorem ringIdxDecr_eq_adv (hn : n ≤ 2 ^ 31) (hi : i < n) (hk : k ≤ n) :
    ringIdxDecr i k n = adv n i (n - k) := by
  rw [adv_eq hi (Nat.sub_le n k)]
  unfold ringIdxDecr
  split_ifs with h1 h2 h2
  · omega
  · rw [u32Sub_of_le (by omega) h1]
    omega
  · have hshort : u32Sub k i = k - i := u32Sub_of_le (by omega) (by omega)
    rw [hshort, u32Sub_of_le (by omega) (by omega)]
    omega
  · omega

/-- Advancing, as integers modulo the ring size. -/
theorem cast_adv (n i k : ℕ) : ((adv n i k : ℕ) : ℤ) = ((i : ℤ) + k) % n := by
  unfold adv
  push_cast
  rfl

/-- Going back, as integers modulo the ring size. -/
theorem cast_adv_sub (hk : k ≤ n) : ((adv n i (n - k) : ℕ) : ℤ) = ((i : ℤ) - k) % n := by
  have hback : (i : ℤ) + ((n - k : ℕ) : ℤ) = (i - k) + n := by
    push_cast [hk]
    ring
  rw [cast_adv, hback, Int.add_emod_right]

/-- The distance, as integers modulo the ring size. -/
theorem cast_dist (hi : i < n) : ((RingIndex.dist n i j : ℕ) : ℤ) = ((j : ℤ) - i) % n := by
  have hgap : (((j + n - i : ℕ) : ℕ) : ℤ) = (j - i) + n := by
    rw [Nat.cast_sub (by omega)]
    push_cast
    ring
  unfold RingIndex.dist
  rw [Int.natCast_mod, hgap, Int.add_emod_right]

theorem ringIdxIncr_unwrapped (hn : n ≤ 2 ^ 31) (hi : i < n) (hk : k ≤ n) :
    ringIdxIncrUnwrapped i k n = some (ringIdxIncr i k n) := by
  unfold ringIdxIncrUnwrapped
  rw [unwrapped_add (show i + k < 2 ^ 32 by omega), Option.bind_some, ringIdxIncr_eq_adv hn hi hk,
    adv_eq hi hk]
  split_ifs with h1 h2
  · omega
  · exact unwrapped_sub (by omega) h1
  · rfl
  · omega

theorem ringIdxDecr_unwrapped (hn : n ≤ 2 ^ 31) (hi : i < n) (hk : k ≤ n) :
    ringIdxDecrUnwrapped i k n = some (ringIdxDecr i k n) := by
  rw [ringIdxDecr_eq_adv hn hi hk, adv_eq hi (Nat.sub_le n k)]
  unfold ringIdxDecrUnwrapped
  split_ifs with h1 h2 h2
  · omega
  · rw [unwrapped_sub (by omega) h1]
    congr 1
    omega
  · rw [unwrapped_sub (by omega) (by omega), Option.bind_some,
      unwrapped_sub (by omega) (by omega)]
    congr 1
    omega
  · omega

theorem ringIdxDelta_unwrapped (hn : n ≤ 2 ^ 31) (hi : i < n) (hj : j < n) :
    ringIdxDeltaUnwrapped j i n = some (ringIdxDelta j i n) := by
  rw [ringIdxDelta_eq_dist hn hi hj, dist_eq hi hj]
  unfold ringIdxDeltaUnwrapped
  split_ifs with h
  · exact unwrapped_sub (by omega) h
  · rw [unwrapped_sub (by omega) hi.le, Option.bind_some, unwrapped_add (by omega)]
    congr 1
    omega

end Ring

/-! ## `descq_wb_credit` -/

section Credit

variable {q : Descq} {cidx : ℕ}

/-- The credits are the distance the consumer index moves. -/
theorem descqWbCredit_snd (hc : q.cidx < q.conf.rngsz) (hj : cidx < q.conf.rngsz) :
    (descqWbCredit q cidx).2 = RingIndex.dist q.conf.rngsz q.cidx cidx := by
  rw [dist_eq hc hj]
  unfold descqWbCredit
  split_ifs with h1 h2 h3 <;> simp only <;> omega

/-- The same in 32 bits. -/
theorem wbDistance_eq (hn : q.conf.rngsz ≤ 2 ^ 31) (hc : q.cidx < q.conf.rngsz)
    (hj : cidx < q.conf.rngsz) : wbDistance q cidx = RingIndex.dist q.conf.rngsz q.cidx cidx := by
  rw [dist_eq hc hj]
  unfold wbDistance
  split_ifs with h1 h2 h2 h3
  · omega
  · omega
  · omega
  · rw [u32Sub_of_le (by omega) hc.le, u32_of_lt (by omega)]
    omega
  · exact u32Sub_of_le (by omega) (by omega)
  · omega

theorem wbDistance_unwrapped (hn : q.conf.rngsz ≤ 2 ^ 31) (hc : q.cidx < q.conf.rngsz)
    (hj : cidx < q.conf.rngsz) : wbDistanceUnwrapped q cidx = some (wbDistance q cidx) := by
  rw [wbDistance_eq hn hc hj, dist_eq hc hj]
  unfold wbDistanceUnwrapped
  split_ifs with h1 h2 h2 h3
  · congr 1
    omega
  · omega
  · omega
  · rw [unwrapped_sub (by omega) hc.le, Option.bind_some, unwrapped_add (by omega)]
    congr 1
    omega
  · exact unwrapped_sub (by omega) (by omega)
  · omega

end Credit

/-! ## The counts of the callers -/

/-- The counts that the receive side passes on: one slot, the buffers read to their end, and the
buffers after its first of a packet that the device has put into posted ones of the same size. -/
structure CountsOnRing (q : Descq) (rngsz : ℕ) : Prop where
  one : 1 ≤ rngsz
  read : ∀ cb, (readLoop q.unreadBufs (readStart q cb)).i ≤ rngsz
  packet : q.conf.c2hBufsz = 2 ^ q.flq.pgShift → ∀ word bufPidx, q.PostedFor word bufPidx →
    u32Sub (flNr q.flq.pgShift (cmplInfo word).len) 1 ≤ rngsz

theorem RxOnRing.counts {q : Descq} (h : RxOnRing q) : CountsOnRing q q.conf.rngsz where
  one := Nat.one_le_of_lt h.pidx
  read cb := by
    have hread := (RxOnRing.readLoop (r := readStart q cb) h q.unreadBufs).2
    have hlap : q.unreadBufs < q.conf.rngsz := by
      unfold Descq.unreadBufs
      rw [h.size, ringIdxDelta_eq_dist (by have := h.rngsz; omega) h.pend h.pidx]
      exact dist_lt (Nat.zero_lt_of_lt h.pidx)
    have hstart : (readStart q cb).i = 0 := rfl
    omega
  packet hsize _ _ hposted :=
    (rxAgree_two_pow h.shift hsize).fits (Nat.zero_lt_of_lt h.pidx) hposted

/-! ## The helpers are right -/

/-- What the helpers come to on a ring of `rngsz` slots, for the indices `i` and `j` and the
count `n`. -/
structure RightHelpers (rngsz i j n : ℕ) : Prop where
  incr : (ringIdxIncr i n rngsz : ℤ) = ((i : ℤ) + n) % rngsz
  decr : (ringIdxDecr i n rngsz : ℤ) = ((i : ℤ) - n) % rngsz
  delta : (ringIdxDelta j i rngsz : ℤ) = ((j : ℤ) - i) % rngsz
  incr_lt : ringIdxIncr i n rngsz < rngsz
  decr_lt : ringIdxDecr i n rngsz < rngsz
  delta_lt : ringIdxDelta j i rngsz < rngsz
  incr_unwrapped : ringIdxIncrUnwrapped i n rngsz = some (ringIdxIncr i n rngsz)
  decr_unwrapped : ringIdxDecrUnwrapped i n rngsz = some (ringIdxDecr i n rngsz)
  delta_unwrapped : ringIdxDeltaUnwrapped j i rngsz = some (ringIdxDelta j i rngsz)
  decr_incr : ringIdxDecr (ringIdxIncr i n rngsz) n rngsz = i
  incr_decr : ringIdxIncr (ringIdxDecr i n rngsz) n rngsz = i
  delta_incr : n < rngsz → ringIdxDelta (ringIdxIncr i n rngsz) i rngsz = n

/-- What `descq_wb_credit` comes to when the consumer index of `q` moves to `j`. -/
structure RightCredit (q : Descq) (j : ℕ) : Prop where
  distance : wbDistance q j = ringIdxDelta j q.cidx q.conf.rngsz
  credit : (descqWbCredit q j).2 = ringIdxDelta j q.cidx q.conf.rngsz
  unwrapped : wbDistanceUnwrapped q j = some (wbDistance q j)
  /-- It is returned as an `int`. -/
  int : wbDistance q j < 2 ^ 31

theorem rightHelpers {rngsz i j n : ℕ} (hn : rngsz ≤ 2 ^ 31) (hi : i < rngsz) (hj : j < rngsz)
    (hk : n ≤ rngsz) : RightHelpers rngsz i j n := by
  have hpos : 0 < rngsz := Nat.zero_lt_of_lt hi
  have hincr := ringIdxIncr_eq_adv hn hi hk
  have hdecr := ringIdxDecr_eq_adv hn hi hk
  have hdelta := ringIdxDelta_eq_dist hn hi hj
  -- a lap, in whatever two parts, leads back to the start
  have hlap : ∀ a b, a + b = rngsz → adv rngsz (adv rngsz i a) b = i := by
    intro a b hab
    rw [adv_adv, hab]
    unfold adv
    rw [Nat.add_mod_right, Nat.mod_eq_of_lt hi]
  refine ⟨?_, ?_, ?_, ?_, ?_, ?_, ringIdxIncr_unwrapped hn hi hk, ringIdxDecr_unwrapped hn hi hk,
    ringIdxDelta_unwrapped hn hi hj, ?_, ?_, ?_⟩
  · rw [hincr, cast_adv]
  · rw [hdecr, cast_adv_sub hk]
  · rw [hdelta, cast_dist hi]
  · exact hincr.trans_lt (adv_lt hpos)
  · exact hdecr.trans_lt (adv_lt hpos)
  · exact hdelta.trans_lt (dist_lt hpos)
  · rw [hincr, ringIdxDecr_eq_adv hn (adv_lt hpos) hk]
    exact hlap _ _ (Nat.add_sub_cancel' hk)
  · rw [hdecr, ringIdxIncr_eq_adv hn (adv_lt hpos) hk]
    exact hlap _ _ (Nat.sub_add_cancel hk)
  · intro hlt
    rw [hincr, ringIdxDelta_eq_dist hn hi (adv_lt hpos), dist_adv hi hlt]

theorem rightCredit {q : Descq} {j : ℕ} (hn : q.conf.rngsz ≤ 2 ^ 31) (hc : q.cidx < q.conf.rngsz)
    (hj : j < q.conf.rngsz) : RightCredit q j := by
  have hdelta := ringIdxDelta_eq_dist hn hc hj
  have hdist := wbDistance_eq hn hc hj
  have hlt : RingIndex.dist q.conf.rngsz q.cidx j < q.conf.rngsz := dist_lt (Nat.zero_lt_of_lt hc)
  refine ⟨hdist.trans hdelta.symm, (descqWbCredit_snd hc hj).trans hdelta.symm,
    wbDistance_unwrapped hn hc hj, ?_⟩
  omega

/-- **The ring index helpers.** -/
theorem ring_idx_helpers (rngsz i j n : ℕ) (hmax : rngsz ≤ 2 ^ 31) (hi : i < rngsz)
    (hj : j < rngsz) (hn : n ≤ rngsz) :
    RightHelpers rngsz i j n ∧
      (∀ q : Descq, q.conf.rngsz = rngsz → q.cidx = i → RightCredit q j) ∧
      ∀ q : Descq, q.conf.rngsz = rngsz → RxOnRing q → CountsOnRing q rngsz := by
  refine ⟨rightHelpers hmax hi hj hn, ?_, ?_⟩
  · intro q hq hc
    apply rightCredit
    · exact hq.trans_le hmax
    · rw [hq, hc]
      exact hi
    · exact hj.trans_eq hq.symm
  · rintro q rfl h
    exact h.counts

/-- Back by a full lap from the first slot of the longest ring. -/
theorem ring_idx_helpers_lap : RightHelpers (2 ^ 31) 0 (2 ^ 31 - 1) (2 ^ 31) :=
  (ring_idx_helpers (2 ^ 31) 0 (2 ^ 31 - 1) (2 ^ 31) le_rfl (by norm_num) (by norm_num)
    le_rfl).1

end Qdma
