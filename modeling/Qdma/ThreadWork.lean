/-
# Balanced threads

`qdma_thread_add_work` gives a queue to a request thread.  Its scan keeps a candidate, but not the
work of the candidate: every thread is compared with the first one.

`thread_work_iff` says when the thread it finds has the least work.  It always has when queues are
only added, and the threads stay balanced then.
-/
import Qdma.LeastLoaded
import Qdma.Lifecycle

namespace Qdma

open LeastLoaded

/-! ## What is asked of it -/

/-- `work_cnt` of the request threads. -/
def QdmaDev.workCnts (x : QdmaDev) : ℕ → ℕ := fun i => (x.wrk i).workCnt

/-- **The queue is given to a thread with the least work**, and in polled mode to the completion
thread that mirrors it. -/
structure AddedToLeast (x : QdmaDev) (id : ℕ) (x' : QdmaDev) (i : ℕ) : Prop where
  least : Least x.workCnts x.threadCnt i
  wrk : x'.wrk = Function.update x.wrk i ((x.wrk i).add id)
  wrkthp : (x'.descq id).wrkthp = some i
  polled : x.numVecs = 0 →
    x'.wb = Function.update x.wb (x.threadCnt - 1 - i) ((x.wb (x.threadCnt - 1 - i)).add id) ∧
      (x'.descq id).wbthp = some (x.threadCnt - 1 - i)
  interrupt : x.numVecs ≠ 0 → x'.wb = x.wb ∧ (x'.descq id).wbthp = none

/-- **When it is**: there is a thread without work, or the last one of those that have less work
than the first has the least. -/
def ThreadsFit (x : QdmaDev) : Prop :=
  0 < x.threadCnt ∧
    ((∃ i < x.threadCnt, x.workCnts i = 0) ∨
      ∀ i, LastLighter x.workCnts x.threadCnt i → Least x.workCnts x.threadCnt i)

/-! ## The scan -/

/-- The loop, once it has looked at the first thread: it stops at a thread without work, or there is
none, and then it finds the last one that is lighter than the first, or keeps its candidate. -/
theorem pickThreadLoop_spec {cnt : ℕ → ℕ} {threadCnt : ℕ} (n i v idx : ℕ) (hi : i + n = threadCnt)
    (hidx : idx < threadCnt) :
    let r := pickThreadLoop cnt threadCnt n i v idx
    (r < threadCnt ∧ cnt r = 0) ∨
      (∀ j, i ≤ j → j < threadCnt → cnt j ≠ 0) ∧
        (r = idx ∧ (∀ j, i ≤ j → j < threadCnt → v ≤ cnt j) ∨
          i ≤ r ∧ r < threadCnt ∧ cnt r < v ∧ ∀ j, r < j → j < threadCnt → v ≤ cnt j) := by
  induction n generalizing i idx with
  | zero =>
      exact .inr ⟨fun j hij hj => absurd hj (by omega),
        .inl ⟨rfl, fun j hij hj => absurd hj (by omega)⟩⟩
  | succ n ih =>
      have hlt : i < threadCnt := by omega
      simp only
      rw [pickThreadLoop, if_neg hidx.ne]
      by_cases hidle : cnt i = 0
      · rw [if_pos hidle]
        exact .inl ⟨hlt, hidle⟩
      rw [if_neg hidle]
      by_cases hlighter : cnt i < v
      · -- it is the candidate now
        rw [if_pos hlighter]
        rcases ih (i + 1) i (by omega) hlt with h | ⟨hbusy, h⟩
        · exact .inl h
        · refine .inr ⟨fun j hij hj => ?_, .inr ?_⟩
          · rcases hij.eq_or_lt with rfl | hgt
            · exact hidle
            · exact hbusy j hgt hj
          · rcases h with ⟨hr, hheavy⟩ | ⟨hle, hr, hcnt, hlast⟩
            · rw [hr]
              exact ⟨le_rfl, hlt, hlighter, hheavy⟩
            · exact ⟨(Nat.le_succ i).trans hle, hr, hcnt, hlast⟩
      · rw [if_neg hlighter]
        rcases ih (i + 1) idx (by omega) hidx with h | ⟨hbusy, h⟩
        · exact .inl h
        · refine .inr ⟨fun j hij hj => ?_, ?_⟩
          · rcases hij.eq_or_lt with rfl | hgt
            · exact hidle
            · exact hbusy j hgt hj
          · rcases h with ⟨hr, hheavy⟩ | ⟨hle, hr, hcnt, hlast⟩
            · refine .inl ⟨hr, fun j hij hj => ?_⟩
              rcases hij.eq_or_lt with rfl | hgt
              · exact Nat.le_of_not_lt hlighter
              · exact hheavy j hgt hj
            · exact .inr ⟨(Nat.le_succ i).trans hle, hr, hcnt, hlast⟩

/-- **The scan compares with the first thread.** -/
theorem pickThread_compared {x : QdmaDev} (h : 0 < x.threadCnt) :
    Compared x.workCnts x.threadCnt x.pickThread := by
  unfold QdmaDev.pickThread
  obtain ⟨n, hn⟩ := Nat.exists_eq_add_of_lt h
  rw [Nat.zero_add] at hn
  have hloop : pickThreadLoop x.workCnts x.threadCnt x.threadCnt 0 0 x.threadCnt =
      pickThreadLoop x.workCnts x.threadCnt n 1 (x.workCnts 0) 0 := by
    conv_lhs => arg 3; rw [hn]
    rw [pickThreadLoop, if_pos rfl]
  have hspec := @pickThreadLoop_spec x.workCnts x.threadCnt n 1 (x.workCnts 0) 0 (by omega) h
  simp only at hspec
  show Compared x.workCnts x.threadCnt
    (pickThreadLoop x.workCnts x.threadCnt x.threadCnt 0 0 x.threadCnt)
  rw [hloop]
  generalize pickThreadLoop x.workCnts x.threadCnt n 1 (x.workCnts 0) 0 = r at hspec
  rcases hspec with ⟨hlt, hidle⟩ | ⟨hbusy, ⟨rfl, hheavy⟩ | ⟨-, hlt, hlighter, hlast⟩⟩
  · exact .idle hlt hidle
  · refine .first h (fun j hj => ?_)
    rcases Nat.eq_zero_or_pos j with rfl | hpos
    · exact le_rfl
    · exact hheavy j hpos hj
  · refine .last ⟨hlt, hlighter, hlast⟩ (fun j hj => ?_)
    rcases Nat.eq_zero_or_pos j with rfl | hpos
    · exact (Nat.zero_lt_of_lt hlighter).ne'
    · exact hbusy j hpos hj

/-! ## One queue -/

theorem threadAddWork_wrk (x : QdmaDev) (id : ℕ) :
    (x.threadAddWork id).wrk =
      Function.update x.wrk x.pickThread ((x.wrk x.pickThread).add id) := rfl

/-- The queue is added to the thread that is picked, and to no other. -/
theorem addedToLeast_iff (x : QdmaDev) (id : ℕ) :
    (∃ i, AddedToLeast x id (x.threadAddWork id) i) ↔
      Least x.workCnts x.threadCnt x.pickThread := by
  have hdescq := threadAddWork_descq x id
  constructor
  · rintro ⟨i, h⟩
    have hi := h.wrkthp
    rw [hdescq] at hi
    obtain rfl : x.pickThread = i := Option.some.inj hi
    exact h.least
  · refine fun h => ⟨x.pickThread, h, rfl, by rw [hdescq], fun hpolled => ?_, fun hintr => ?_⟩
    · have hcmpl : x.pickCmplThread = some (x.threadCnt - 1 - x.pickThread) := by
        unfold QdmaDev.pickCmplThread
        rw [if_pos hpolled, Nat.sub_right_comm]
      refine ⟨?_, by rw [hdescq, hcmpl]⟩
      show (x.threadLink id).wb = _
      unfold QdmaDev.threadLink
      rw [hcmpl]
    · have hcmpl : x.pickCmplThread = none := if_neg hintr
      refine ⟨?_, by rw [hdescq, hcmpl]⟩
      show (x.threadLink id).wb = _
      unfold QdmaDev.threadLink
      rw [hcmpl]

/-- **When the queue is given to a thread with the least work.** -/
theorem addedToLeast_iff_fits (x : QdmaDev) (id : ℕ) :
    (∃ i, AddedToLeast x id (x.threadAddWork id) i) ↔ ThreadsFit x := by
  rw [addedToLeast_iff]
  by_cases hpos : 0 < x.threadCnt
  · exact (pickThread_compared hpos).least_iff.trans (and_iff_right hpos).symm
  · refine iff_of_false (fun h => ?_) (fun h => hpos h.1)
    exact hpos (Nat.zero_lt_of_lt h.lt)

/-! ## Queues that are added -/

/-- The work counts, while they fit 32 bits. -/
theorem threadAddWork_workCnts {x : QdmaDev} (id : ℕ)
    (hfit : x.workCnts x.pickThread < 2 ^ 32 - 1) :
    (x.threadAddWork id).workCnts = give x.workCnts x.pickThread := by
  funext j
  unfold QdmaDev.workCnts give
  rw [threadAddWork_wrk]
  by_cases hj : j = x.pickThread
  · rw [hj, Function.update_self, Function.update_self]
    exact Nat.mod_eq_of_lt (by unfold QdmaDev.workCnts at hfit; omega)
  · rw [Function.update_of_ne hj, Function.update_of_ne hj]

/-- **The run keeps the threads balanced**, as long as the work of all fits. -/
theorem balanced_foldl {x : QdmaDev} (ids : List ℕ) (h : Balanced x.workCnts x.threadCnt)
    (hfit : total x.workCnts x.threadCnt + ids.length ≤ x.threadCnt * (2 ^ 32 - 1)) :
    Balanced (ids.foldl QdmaDev.threadAddWork x).workCnts x.threadCnt := by
  induction ids generalizing x with
  | nil => exact h
  | cons id ids ih =>
      rw [List.length_cons] at hfit
      have hpos : 0 < x.threadCnt := by
        rcases Nat.eq_zero_or_pos x.threadCnt with hzero | hpos
        · rw [hzero, Nat.zero_mul] at hfit
          omega
        · exact hpos
      have hleast := h.least_of_compared (pickThread_compared hpos)
      have hlt : x.workCnts x.pickThread < 2 ^ 32 - 1 := by
        refine lt_of_mul_lt_mul_left (a := x.threadCnt) ?_ (Nat.zero_le _)
        have hle := hleast.mul_le_total
        omega
      have hcnts := threadAddWork_workCnts id hlt
      refine ih (x := x.threadAddWork id) ?_ ?_
      · rw [hcnts]
        exact h.give hleast
      · show total (x.threadAddWork id).workCnts x.threadCnt + ids.length ≤ _
        rw [hcnts, total_give hleast.lt]
        show _ ≤ x.threadCnt * (2 ^ 32 - 1)
        omega

/-- **When the threads are balanced**: for all threads and every distribution of work a queue is
given to one with the least exactly if the threads fit; and as long as queues are only added, from
threads without work on, any two differ by at most one. -/
theorem thread_work_iff (x : QdmaDev) :
    (∀ id, (∃ i, AddedToLeast x id (x.threadAddWork id) i) ↔ ThreadsFit x) ∧
      ((∀ i < x.threadCnt, x.workCnts i = 0) →
        ∀ ids : List ℕ, ids.length ≤ x.threadCnt * (2 ^ 32 - 1) →
          Balanced (ids.foldl QdmaDev.threadAddWork x).workCnts x.threadCnt) := by
  refine ⟨addedToLeast_iff_fits x, fun hidle ids hlen => balanced_foldl ids ?_ ?_⟩
  · intro i hi j _
    rw [hidle i hi]
    exact Nat.zero_le _
  · have hzero : total x.workCnts x.threadCnt = 0 :=
      Finset.sum_eq_zero (fun i hi => hidle i (Finset.mem_range.mp hi))
    rw [hzero, Nat.zero_add]
    exact hlen

/-- A device with five queue pairs in polled mode, and three threads. -/
def threeThreads : QdmaDev := { pairDev 0 with qmax := 5, threadCnt := 3 }

/-- Eight queues are added. -/
theorem eight_balanced :
    Balanced ((List.range 8).foldl QdmaDev.threadAddWork threeThreads).workCnts 3 :=
  (thread_work_iff threeThreads).2 (by decide) (List.range 8) (by decide)

/-- Nine queues are added, and three of them stopped. -/
def unevenThreads : QdmaDev :=
  [0, 5, 1].foldl QdmaDev.threadRemoveWork
    ((List.range 9).foldl QdmaDev.threadAddWork threeThreads)

/-- **The last thread that is lighter than the first** gets the next queue, although the second has
less work. -/
theorem thread_work_uneven :
    (List.range 3).map unevenThreads.workCnts = [3, 1, 2] ∧
      (List.range 3).map (unevenThreads.threadAddWork 9).workCnts = [3, 1, 3] ∧
      ¬ ∃ i, AddedToLeast unevenThreads 9 (unevenThreads.threadAddWork 9) i := by
  have hcnts : (List.range 3).map unevenThreads.workCnts = [3, 1, 2] := by decide +kernel
  have hpick : unevenThreads.pickThread = 2 := by decide +kernel
  refine ⟨hcnts, by decide +kernel, ?_⟩
  rintro ⟨i, h⟩
  have hi := h.wrkthp
  rw [threadAddWork_descq, hpick] at hi
  obtain rfl : 2 = i := Option.some.inj hi
  have hle := h.least.le 1 (by decide +kernel)
  have hone : unevenThreads.workCnts 1 = 1 := by decide +kernel
  have htwo : unevenThreads.workCnts 2 = 2 := by decide +kernel
  omega

end Qdma
