/-
# The vectors of the queues

In interrupt mode a queue that is started gets the data vector with the fewest queues by
`intr_list_cnt`, and its node is linked on the list of the vector.  The count is raised when the
vector is picked, but lowered in `qdma_descq_cleanup`, when the queue is removed.

`vector_counts` says in which runs the counts are those of the started queues; `vector_counts_drift`
has the steps after which they are not, the first being any stop of a queue.
-/
import Qdma.Exec
import Qdma.OpFrame

namespace Qdma

open Exec ListHeads

/-! ## The law -/

/-- The queues that are started, on vector `v`. -/
def QdmaDev.startedOn (x : QdmaDev) (v : ℕ) : Finset ℕ :=
  (Finset.range (2 * x.qmax)).filter (fun id => (x.descq id).online = true ∧ (x.descq id).intrId = v)

/-- Vector `v` is a data vector, and no data vector has fewer queues. -/
structure QdmaDev.MinVec (x : QdmaDev) (v : ℕ) : Prop where
  ge : x.dvecStartIdx ≤ v
  lt : v < x.numVecs
  min : ∀ i, x.dvecStartIdx ≤ i → i < x.numVecs → x.intrListCnt v ≤ x.intrListCnt i

/-- **The bookkeeping of the vectors.** -/
structure VecLaw (x : QdmaDev) : Prop where
  cnt : ∀ v, x.intrListCnt v = (x.startedOn v).card
  range : ∀ id < 2 * x.qmax, (x.descq id).online = true →
    x.dvecStartIdx ≤ (x.descq id).intrId ∧ (x.descq id).intrId < x.numVecs
  list : ∀ id < 2 * x.qmax, (x.descq id).online = true →
    OnlyOn x.intrList id (x.descq id).intrId

/-! ## Runs -/

/-- A call, among those of the queues. -/
inductive VecOp where
  | add (c : AddCall)
  | config (qid : ℕ) (qconf : QueueConf)
  | reconfig (id : ℕ) (qconf : QueueConf)
  | start (id : ℕ) (env : StartEnv)
  | stop (id : ℕ) (ctxCleared : Bool)
  | remove (id : ℕ) (ctxCleared : Bool)
  | cleanup (ctxCleared : ℕ → Bool)

/-- The device after it. -/
def QdmaDev.vecStep (x : QdmaDev) : VecOp → QdmaDev
  | .add c => (x.queueAdd c).1
  | .config qid qconf => (x.queueConfig qid qconf).1
  | .reconfig id qconf => x.queueReconfig id qconf
  | .start id env => (x.queueStart id env).1
  | .stop id ctxCleared => x.queueStop id ctxCleared
  | .remove id ctxCleared => x.queueRemove id ctxCleared
  | .cleanup ctxCleared => x.deviceCleanup ctxCleared

/-- A start of the queue comes to picking a vector: the queue is there, the CSR tables are read,
its state is right and the rings are allocated. -/
def QdmaDev.StartPicks (x : QdmaDev) (id : ℕ) (env : StartEnv) : Prop :=
  x.Has id ∧ ¬ (startConfig (x.descq id) env.csr).2 < 0 ∧
    ¬ (startCheck (startConfig (x.descq id) env.csr).1).2 < 0 ∧
    ¬ (qdmaDescqAllocResource (startCheck (startConfig (x.descq id) env.csr).1).1 env.alloc
      x.pickVec).2 < 0

/-- **The steps that keep the vectors.**  A start that picks a vector finds a data vector, programs
the context, and its queue is on no list; no started queue is stopped; and a queue that is removed
is started, or the count of its last vector is 0. -/
def VecLegal (x : QdmaDev) : VecOp → Prop
  | .start id env => x.StartPicks id env →
      x.dvecStartIdx < x.numVecs ∧ env.ctx = .ok ∧ Off x.intrList id
  | .stop id _ => x.Has id → (x.descq id).online = false
  | .remove id _ => x.Has id →
      (x.descq id).online = true ∨ x.intrListCnt (x.descq id).intrId = 0
  | _ => True

/-- A device without aggregation that is set up: function 0 uses its first two vectors for errors
and the user, the others the first one for the user. -/
structure FreshVecs (x : QdmaDev) (funcId : ℕ) : Prop where
  numVecs : 0 < x.numVecs
  noAgg : x.intrCoalEn = false
  dvec : x.dvecStartIdx = if funcId = 0 then 2 else 1
  offline : ∀ id < 2 * x.qmax, (x.descq id).online = false
  cnt : ∀ v, x.intrListCnt v = 0

/-! ## Picking a vector -/

/-- The loop finds the smallest count from vector `i` on, if `idx` has the smallest one before. -/
theorem pickVecLoop_min {cnt : ℕ → ℕ} {lo : ℕ} (n i idx : ℕ) (hlo : lo ≤ idx) (hi : lo ≤ i)
    (hmin : ∀ j, lo ≤ j → j < i → cnt idx ≤ cnt j) :
    lo ≤ pickVecLoop cnt n i (cnt idx) idx ∧
      ∀ j, lo ≤ j → j < i + n → cnt (pickVecLoop cnt n i (cnt idx) idx) ≤ cnt j := by
  induction n generalizing i idx with
  | zero => exact ⟨hlo, hmin⟩
  | succ n ih =>
      -- the better of `idx` and `i`
      obtain ⟨k, hk, hklo, hkmin⟩ : ∃ k, (if cnt i < cnt idx then (cnt i, i) else (cnt idx, idx))
          = (cnt k, k) ∧ lo ≤ k ∧ ∀ j, lo ≤ j → j < i + 1 → cnt k ≤ cnt j := by
        by_cases hlt : cnt i < cnt idx
        · refine ⟨i, if_pos hlt, hi, fun j hj hji => ?_⟩
          rcases Nat.lt_succ_iff_lt_or_eq.mp hji with hji | rfl
          · exact hlt.le.trans (hmin j hj hji)
          · exact le_rfl
        · refine ⟨idx, if_neg hlt, hlo, fun j hj hji => ?_⟩
          rcases Nat.lt_succ_iff_lt_or_eq.mp hji with hji | rfl
          · exact hmin j hj hji
          · exact Nat.le_of_not_lt hlt
      rw [pickVecLoop, hk]
      simp only
      by_cases hz : cnt k = 0
      · rw [if_pos hz]
        exact ⟨hklo, fun j _ _ => by rw [hz]; exact Nat.zero_le _⟩
      · rw [if_neg hz, show i + (n + 1) = i + 1 + n by omega]
        exact ih (i + 1) k hklo (by omega) hkmin

/-- **The vector picked** has the smallest count of all data vectors. -/
theorem pickVec_min {x : QdmaDev} (h : 0 < x.numVecs) (hagg : x.intrCoalEn = false)
    (hd : x.dvecStartIdx < x.numVecs) : ∃ v, x.pickVec = some v ∧ x.MinVec v := by
  have hmin := @pickVecLoop_min x.intrListCnt x.dvecStartIdx (x.numVecs - x.dvecStartIdx)
    x.dvecStartIdx x.dvecStartIdx le_rfl le_rfl (fun j hj hlt => absurd hlt (Nat.not_lt.mpr hj))
  refine ⟨_, ?_, ⟨hmin.1, pickVecLoop_lt _ _ _ _ (by omega) hd, fun i hi hlt => ?_⟩⟩
  · unfold QdmaDev.pickVec
    rw [if_neg (Nat.pos_iff_ne_zero.mp h), if_neg (by rw [hagg]; decide)]
  · exact hmin.2 i hi (by omega)

/-! ## What the operations do to the vectors -/

/-- All queues are as they were, and so are the vectors. -/
structure SameVecs (x x' : QdmaDev) : Prop where
  qmax : x'.qmax = x.qmax
  numVecs : x'.numVecs = x.numVecs
  dvec : x'.dvecStartIdx = x.dvecStartIdx
  coal : x'.intrCoalEn = x.intrCoalEn
  tags : ∀ id, ((x'.descq id).online, (x'.descq id).intrId)
    = ((x.descq id).online, (x.descq id).intrId)
  list : x'.intrList = x.intrList
  cnt : x'.intrListCnt = x.intrListCnt

/-- The same, but for queue `id`. -/
structure VecsBut (id : ℕ) (x x' : QdmaDev) : Prop where
  qmax : x'.qmax = x.qmax
  numVecs : x'.numVecs = x.numVecs
  dvec : x'.dvecStartIdx = x.dvecStartIdx
  coal : x'.intrCoalEn = x.intrCoalEn
  other : ∀ id', id' ≠ id → x'.descq id' = x.descq id'

theorem VecsBut.refl (id : ℕ) (x : QdmaDev) : VecsBut id x x :=
  ⟨rfl, rfl, rfl, rfl, fun _ _ => rfl⟩

theorem VecsBut.trans {id : ℕ} {x y z : QdmaDev} (h : VecsBut id x y) (h' : VecsBut id y z) :
    VecsBut id x z :=
  ⟨h'.qmax.trans h.qmax, h'.numVecs.trans h.numVecs, h'.dvec.trans h.dvec, h'.coal.trans h.coal,
    fun id' hne => (h'.other id' hne).trans (h.other id' hne)⟩

theorem setDescq_vecsBut (x : QdmaDev) (id : ℕ) (d : Descq) : VecsBut id x (x.setDescq id d) :=
  ⟨rfl, rfl, rfl, rfl, fun _ hne => setDescq_of_ne x d hne⟩

theorem SameVecs.refl (x : QdmaDev) : SameVecs x x :=
  ⟨rfl, rfl, rfl, rfl, fun _ => rfl, rfl, rfl⟩

/-- Where queue `id` keeps its state and vector, all is as it was. -/
theorem VecsBut.same {id : ℕ} {x x' : QdmaDev} (h : VecsBut id x x')
    (htags : (x'.descq id).tags = (x.descq id).tags) (hlist : x'.intrList = x.intrList)
    (hcnt : x'.intrListCnt = x.intrListCnt) : SameVecs x x' := by
  refine ⟨h.qmax, h.numVecs, h.dvec, h.coal, fun id' => ?_, hlist, hcnt⟩
  by_cases hid : id' = id
  · rw [hid]
    exact congrArg (·.2) htags
  · rw [h.other id' hid]

theorem threadAddWork_vecs (x : QdmaDev) (id : ℕ) :
    VecsBut id x (x.threadAddWork id) ∧
      ((x.threadAddWork id).descq id).tags = (x.descq id).tags ∧
      (x.threadAddWork id).intrList = x.intrList ∧
      (x.threadAddWork id).intrListCnt = x.intrListCnt := by
  unfold QdmaDev.threadAddWork QdmaDev.threadAssign
  refine ⟨?_, ?_, rfl, rfl⟩
  · have hlink : VecsBut id x (x.threadLink id) := ⟨rfl, rfl, rfl, rfl, fun _ _ => rfl⟩
    exact hlink.trans (setDescq_vecsBut _ id _)
  · rw [setDescq_self]
    rfl

theorem threadRemoveWork_vecs (x : QdmaDev) (id : ℕ) :
    VecsBut id x (x.threadRemoveWork id) ∧
      ((x.threadRemoveWork id).descq id).tags = (x.descq id).tags ∧
      (x.threadRemoveWork id).intrList = x.intrList ∧
      (x.threadRemoveWork id).intrListCnt = x.intrListCnt := by
  have hset := setDescq_vecsBut x id { x.descq id with wrkthp := none, wbthp := none }
  have htags : ((x.threadAssign id none none).descq id).tags = (x.descq id).tags := by
    unfold QdmaDev.threadAssign
    rw [setDescq_self]
    rfl
  unfold QdmaDev.threadRemoveWork
  simp only
  cases (x.descq id).wrkthp <;> cases (x.descq id).wbthp <;>
    exact ⟨⟨rfl, rfl, rfl, rfl, hset.other⟩, htags, rfl, rfl⟩

/-! ## Starting -/

/-- A queue whose start fails before it picks a vector. -/
theorem queueStart_idle {x : QdmaDev} {id : ℕ} {env : StartEnv} (h : ¬ x.StartPicks id env) :
    SameVecs x (x.queueStart id env).1 := by
  unfold QdmaDev.StartPicks at h
  unfold QdmaDev.queueStart
  by_cases hhas : x.Has id
  swap
  · rw [if_neg hhas]
    exact .refl x
  rw [if_pos hhas]
  simp only
  have htags := startConfig_tags (x.descq id) env.csr
  by_cases hcfg : (startConfig (x.descq id) env.csr).2 < 0
  · rw [if_pos hcfg]
    exact (setDescq_vecsBut x id _).same (by rw [setDescq_self, htags]) rfl rfl
  rw [if_neg hcfg]
  have htags1 := (startCheck_tags (startConfig (x.descq id) env.csr).1).trans htags
  by_cases hchk : (startCheck (startConfig (x.descq id) env.csr).1).2 < 0
  · rw [if_pos hchk]
    exact (setDescq_vecsBut x id _).same (by rw [setDescq_self, htags1]) rfl rfl
  rw [if_neg hchk]
  set d1 := (startCheck (startConfig (x.descq id) env.csr).1).1 with hd1
  have halloc : (qdmaDescqAllocResource d1 env.alloc x.pickVec).2 < 0 := by
    by_contra hno
    exact h ⟨hhas, hcfg, hchk, hno⟩
  have htags2 : (qdmaDescqAllocResource d1 env.alloc x.pickVec).1.tags = d1.tags := by
    rw [allocResource_tags, if_pos halloc]
    rfl
  rw [if_pos halloc]
  have hprog : startProgHw (qdmaDescqAllocResource d1 env.alloc x.pickVec).1
      (qdmaDescqAllocResource d1 env.alloc x.pickVec).2 env
      = (startFreeResource (qdmaDescqAllocResource d1 env.alloc x.pickVec).1,
        (qdmaDescqAllocResource d1 env.alloc x.pickVec).2) := if_pos halloc
  unfold QdmaDev.startFinish
  rw [setDescq_self, hprog]
  simp only
  rw [if_pos halloc]
  refine ((setDescq_vecsBut x id _).trans (setDescq_vecsBut _ id _)).same ?_ rfl rfl
  rw [setDescq_self, startFreeResource_tags, htags2, htags1]

/-- A start that comes up. -/
structure ComesUp (x x' : QdmaDev) (id v : ℕ) : Prop where
  but : VecsBut id x x'
  was : (x.descq id).online = false
  tags : (x'.descq id).tags = (true, true, v)
  list : x'.intrList = enqueue x.intrList v id
  cnt : x'.intrListCnt = Function.update x.intrListCnt v (x.intrListCnt v + 1)

/-- **A queue whose start picks vector `v`** and programs the context is linked there and
counted. -/
theorem queueStart_up {x : QdmaDev} {id : ℕ} {env : StartEnv} (h : x.StartPicks id env)
    (hctx : env.ctx = .ok) (hagg : x.intrCoalEn = false) {v : ℕ} (hpick : x.pickVec = some v)
    (hv : v < x.numVecs) : ComesUp x (x.queueStart id env).1 id v := by
  obtain ⟨hhas, hcfg, hchk, halloc⟩ := h
  have htags := startConfig_tags (x.descq id) env.csr
  have htags1 := (startCheck_tags (startConfig (x.descq id) env.csr).1).trans htags
  have hoff : (x.descq id).online = false := by
    have hon : (startConfig (x.descq id) env.csr).1.online = (x.descq id).online :=
      congrArg (·.2.1) htags
    rw [← hon]
    by_contra hup
    rw [Bool.not_eq_false] at hup
    refine hchk ?_
    unfold startCheck
    rw [if_pos (by rw [hup, Bool.or_true])]
    exact show qdmaErrInvalidDescqState < 0 by decide
  unfold QdmaDev.queueStart
  rw [if_pos hhas]
  simp only
  rw [if_neg hcfg, if_neg hchk]
  set d1 := (startCheck (startConfig (x.descq id) env.csr).1).1 with hd1
  rw [if_neg halloc]
  have hrv := (allocResource_rv d1 env.alloc x.pickVec).resolve_right halloc
  have htags2 := allocResource_tags d1 env.alloc x.pickVec
  rw [if_neg halloc, hpick, Option.getD_some] at htags2
  rw [hpick] at hrv ⊢
  rw [hrv]
  set d2 := (qdmaDescqAllocResource d1 env.alloc (some v)).1 with hd2
  -- the count, before the queue is linked
  have hcv : (x.setDescq id d2).countVec
      = { x.setDescq id d2 with
          intrListCnt := Function.update x.intrListCnt v (x.intrListCnt v + 1) } := by
    unfold QdmaDev.countVec
    rw [show (x.setDescq id d2).pickVec = some v from hpick]
    simp only
    exact if_neg (show ¬ x.intrCoalEn = true by rw [hagg]; decide)
  rw [hcv]
  unfold QdmaDev.startFinish
  have hself : ({ x.setDescq id d2 with
      intrListCnt := Function.update x.intrListCnt v (x.intrListCnt v + 1) } : QdmaDev).descq id
      = d2 := setDescq_self x id d2
  rw [hself]
  have hprog : (startProgHw d2 0 env).2 = 0 := by
    unfold startProgHw
    rw [if_neg (lt_irrefl (0 : ℤ)), hctx]
    unfold qdmaDescqProgHw
    simp only
    split_ifs <;> rfl
  have htags3 := startProgHw_tags d2 0 env
  rw [hprog, if_neg (lt_irrefl (0 : ℤ))] at htags3
  simp only
  rw [hprog, if_neg (lt_irrefl (0 : ℤ))]
  set y := ({ x.setDescq id d2 with
      intrListCnt := Function.update x.intrListCnt v (x.intrListCnt v + 1) } : QdmaDev).setDescq id
      (startProgHw d2 0 env).1 with hy
  have hbut : VecsBut id x y := by
    refine ⟨rfl, rfl, rfl, rfl, fun id' hne => ?_⟩
    rw [hy, setDescq_of_ne _ _ hne]
    exact setDescq_of_ne x d2 hne
  have hytags : (y.descq id).tags = (true, true, v) := by
    rw [hy, setDescq_self, htags3]
    have hen : d2.enabled = true := by
      rw [show d2.enabled = d1.enabled from congrArg (·.1) htags2,
        show d1.enabled = (x.descq id).enabled from congrArg (·.1) htags1]
      exact hhas.2.2
    rw [hen, show d2.intrId = v from congrArg (·.2.2) htags2]
  obtain ⟨hbut', htags', hlist', hcnt'⟩ := threadAddWork_vecs y id
  have hvec : ((y.threadAddWork id).descq id).intrId = v :=
    congrArg (·.2.2) (htags'.trans hytags)
  have hlink : (y.threadAddWork id).intrLink id
      = { y.threadAddWork id with
          intrList := enqueue (y.threadAddWork id).intrList v id } := by
    unfold QdmaDev.intrLink
    simp only
    rw [hvec, if_pos]
    exact ⟨(Nat.lt_of_le_of_lt (Nat.zero_le v) hv).ne', hv⟩
  rw [hlink]
  refine ⟨?_, hoff, htags'.trans hytags, ?_, hcnt'⟩
  · have hall := hbut.trans hbut'
    exact ⟨hall.qmax, hall.numVecs, hall.dvec, hall.coal, hall.other⟩
  · show enqueue (y.threadAddWork id).intrList v id = _
    rw [hlist']
    rfl

/-! ## Stopping, removing -/

theorem intrUnlink_vecs (x : QdmaDev) (id : ℕ) :
    (x.intrUnlink id).descq = x.descq ∧ VecsBut id x (x.intrUnlink id) ∧
      (x.intrUnlink id).intrListCnt = x.intrListCnt ∧
      ∀ b, b ≠ id → ∀ j, ((x.intrUnlink id).intrList j).count b = (x.intrList j).count b := by
  unfold QdmaDev.intrUnlink
  simp only
  split_ifs
  · exact ⟨rfl, .refl id x, rfl, fun _ _ _ => rfl⟩
  · exact ⟨rfl, ⟨rfl, rfl, rfl, rfl, fun _ _ => rfl⟩, rfl,
      fun b hne j => count_unlink hne _ j⟩

/-- **A stop** takes queue `id` offline; its vector stays counted. -/
theorem queueStop_vecs {x : QdmaDev} {id : ℕ} (hhas : x.Has id) (ctxCleared : Bool) :
    VecsBut id x (x.queueStop id ctxCleared) ∧
      ((x.queueStop id ctxCleared).descq id).tags
        = ((x.descq id).enabled, false, (x.descq id).intrId) ∧
      (x.queueStop id ctxCleared).intrListCnt = x.intrListCnt ∧
      ∀ b, b ≠ id → ∀ j,
        ((x.queueStop id ctxCleared).intrList j).count b = (x.intrList j).count b := by
  obtain ⟨hbut, htags, hlist, hcnt⟩ := threadRemoveWork_vecs x id
  obtain ⟨hdescq, hbut', hcnt', hlist'⟩ := intrUnlink_vecs (x.threadRemoveWork id) id
  unfold QdmaDev.queueStop
  rw [if_pos hhas]
  simp only
  refine ⟨(hbut.trans hbut').trans (setDescq_vecsBut _ id _), ?_, hcnt'.trans hcnt,
    fun b hne j => ?_⟩
  · rw [setDescq_self, hdescq]
    have hrel : (stopRelease ((x.threadRemoveWork id).descq id) ctxCleared).tags
        = (x.descq id).tags := (freeResource_tags _).trans htags
    unfold Descq.tags at hrel ⊢
    obtain ⟨hen, -, hvec⟩ : _ ∧ _ ∧ _ := by simpa using hrel
    exact Prod.ext hen (Prod.ext rfl hvec)
  · exact (hlist' b hne j).trans (by rw [hlist])

/-- **Cleaning up** counts a queue less on its vector. -/
theorem descqCleanup_vecs {x : QdmaDev} (hn : 0 < x.numVecs) (id : ℕ) (ctxCleared : Bool) :
    VecsBut id x (x.descqCleanup id ctxCleared) ∧
      ((x.descqCleanup id ctxCleared).descq id).enabled = (x.descq id).enabled ∧
      ((x.descqCleanup id ctxCleared).descq id).intrId = (x.descq id).intrId ∧
      ((x.descq id).online = false →
        ((x.descqCleanup id ctxCleared).descq id).online = false) ∧
      (x.descqCleanup id ctxCleared).intrList = x.intrList ∧
      (x.descqCleanup id ctxCleared).intrListCnt
        = Function.update x.intrListCnt (x.descq id).intrId
          (x.intrListCnt (x.descq id).intrId - 1) := by
  unfold QdmaDev.descqCleanup
  simp only
  set d := if (x.descq id).inited then qdmaDescqContextClear
    { x.descq id with inited := false, online := false } ctxCleared else x.descq id with hd
  have hvec : d.intrId = (x.descq id).intrId := by
    rw [hd]
    split_ifs <;> rfl
  have hen : d.enabled = (x.descq id).enabled := by
    rw [hd]
    split_ifs <;> rfl
  have hon : (x.descq id).online = false → d.online = false := by
    rw [hd]
    split_ifs
    · exact fun _ => rfl
    · exact fun h => h
  -- the vector's count goes down, and its list stays
  have hirq : (x.setDescq id d).descFreeIrq id
      = { x.setDescq id d with
          intrListCnt := Function.update x.intrListCnt (x.descq id).intrId
            (x.intrListCnt (x.descq id).intrId - 1) } := by
    unfold QdmaDev.descFreeIrq
    simp only
    rw [setDescq_self, hvec, if_neg]
    · rfl
    · exact hn.ne'
  rw [hirq]
  have hself : ({ x.setDescq id d with
      intrListCnt := Function.update x.intrListCnt (x.descq id).intrId
        (x.intrListCnt (x.descq id).intrId - 1) } : QdmaDev).descq id = d := setDescq_self x id d
  rw [hself]
  have htags := freeResource_tags d
  unfold Descq.tags at htags
  obtain ⟨h1, h2, h3⟩ : (qdmaDescqFreeResource d).enabled = d.enabled ∧
      (qdmaDescqFreeResource d).online = d.online ∧
      (qdmaDescqFreeResource d).intrId = d.intrId := by simpa using htags
  refine ⟨⟨rfl, rfl, rfl, rfl, fun id' hne => ?_⟩, ?_, ?_, fun hoff => ?_, rfl, rfl⟩
  · rw [setDescq_of_ne _ _ hne]
    exact setDescq_of_ne x d hne
  · rw [setDescq_self, h1, hen]
  · rw [setDescq_self, h3, hvec]
  · rw [setDescq_self, h2]
    exact hon hoff

/-! ## The invariant -/

/-- **The invariant** of the runs. -/
structure VecInv (x : QdmaDev) : Prop where
  numVecs : 0 < x.numVecs
  noAgg : x.intrCoalEn = false
  enabled : ∀ id < 2 * x.qmax, (x.descq id).online = true → (x.descq id).enabled = true
  law : VecLaw x

theorem startedOn_congr {x x' : QdmaDev} (h : SameVecs x x') (v : ℕ) :
    x'.startedOn v = x.startedOn v := by
  unfold QdmaDev.startedOn
  rw [h.qmax]
  refine Finset.filter_congr (fun id _ => ?_)
  have htags := h.tags id
  rw [show (x'.descq id).online = (x.descq id).online from congrArg Prod.fst htags,
    show (x'.descq id).intrId = (x.descq id).intrId from congrArg Prod.snd htags]

/-- A step that changes nothing of it. -/
theorem VecInv.same {x x' : QdmaDev} (h : VecInv x) (hs : SameVecs x x')
    (hen : ∀ id < 2 * x.qmax, (x.descq id).enabled = true → (x'.descq id).enabled = true) :
    VecInv x' := by
  have hon : ∀ id, (x'.descq id).online = (x.descq id).online :=
    fun id => congrArg Prod.fst (hs.tags id)
  have hvec : ∀ id, (x'.descq id).intrId = (x.descq id).intrId :=
    fun id => congrArg Prod.snd (hs.tags id)
  refine ⟨hs.numVecs ▸ h.numVecs, hs.coal.trans h.noAgg, fun id hlt => ?_,
    ⟨fun v => ?_, fun id hlt => ?_, fun id hlt => ?_⟩⟩
  · rw [hs.qmax] at hlt
    rw [hon]
    exact fun hup => hen id hlt (h.enabled id hlt hup)
  · rw [hs.cnt, startedOn_congr hs]
    exact h.law.cnt v
  · rw [hs.qmax] at hlt
    rw [hon, hvec, hs.dvec, hs.numVecs]
    exact h.law.range id hlt
  · rw [hs.qmax] at hlt
    rw [hon, hvec, hs.list]
    exact h.law.list id hlt

/-- What one queue does to the number of those started on a vector. -/
theorem startedOn_step {x x' : QdmaDev} {id : ℕ} (h : VecsBut id x x') (hlt : id < 2 * x.qmax)
    (v : ℕ) :
    (x'.startedOn v).card
        + (if (x.descq id).online = true ∧ (x.descq id).intrId = v then 1 else 0)
      = (x.startedOn v).card
        + (if (x'.descq id).online = true ∧ (x'.descq id).intrId = v then 1 else 0) := by
  have hmem : ∀ y : QdmaDev, y.qmax = x.qmax →
      (id ∈ y.startedOn v ↔ (y.descq id).online = true ∧ (y.descq id).intrId = v) := by
    intro y hy
    unfold QdmaDev.startedOn
    rw [Finset.mem_filter, Finset.mem_range, hy]
    exact and_iff_right hlt
  have hcard : ∀ y : QdmaDev, y.qmax = x.qmax → (y.startedOn v).card
      = ((y.startedOn v).erase id).card
        + (if (y.descq id).online = true ∧ (y.descq id).intrId = v then 1 else 0) := by
    intro y hy
    by_cases hon : (y.descq id).online = true ∧ (y.descq id).intrId = v
    · rw [if_pos hon, Finset.card_erase_add_one ((hmem y hy).mpr hon)]
    · rw [if_neg hon, Finset.erase_eq_of_notMem (fun hin => hon ((hmem y hy).mp hin)), Nat.add_zero]
  have hrest : (x'.startedOn v).erase id = (x.startedOn v).erase id := by
    ext id'
    unfold QdmaDev.startedOn
    rw [Finset.mem_erase, Finset.mem_erase, Finset.mem_filter, Finset.mem_filter, h.qmax]
    refine and_congr_right (fun hne => ?_)
    rw [h.other id' hne]
  have h1 := hcard x rfl
  have h2 := hcard x' h.qmax
  rw [hrest] at h2
  omega

/-- **A queue comes up.** -/
theorem VecInv.up {x x' : QdmaDev} (h : VecInv x) {id v : ℕ} (hlt : id < 2 * x.qmax)
    (hu : ComesUp x x' id v) (hv : x.MinVec v) (hoff : Off x.intrList id) : VecInv x' := by
  have hon : (x'.descq id).online = true := congrArg (·.2.1) hu.tags
  have hvec : (x'.descq id).intrId = v := congrArg (·.2.2) hu.tags
  refine ⟨hu.but.numVecs ▸ h.numVecs, hu.but.coal.trans h.noAgg, fun id' hlt' hup => ?_,
    ⟨fun w => ?_, fun id' hlt' hup => ?_, fun id' hlt' hup => ?_⟩⟩
  · rw [hu.but.qmax] at hlt'
    by_cases hid : id' = id
    · rw [hid]
      exact congrArg (·.1) hu.tags
    · rw [hu.but.other id' hid] at hup ⊢
      exact h.enabled id' hlt' hup
  · have hstep := startedOn_step hu.but hlt w
    rw [hu.was, hon, hvec, if_neg (by simp)] at hstep
    rw [hu.cnt]
    by_cases hw : w = v
    · subst hw
      rw [Function.update_self, h.law.cnt]
      rw [if_pos ⟨rfl, rfl⟩] at hstep
      omega
    · rw [Function.update_of_ne hw, h.law.cnt]
      rw [if_neg (fun hc => hw hc.2.symm)] at hstep
      omega
  · rw [hu.but.qmax] at hlt'
    rw [hu.but.dvec, hu.but.numVecs]
    by_cases hid : id' = id
    · rw [hid, hvec]
      exact ⟨hv.ge, hv.lt⟩
    · rw [hu.but.other id' hid] at hup ⊢
      exact h.law.range id' hlt' hup
  · rw [hu.but.qmax] at hlt'
    rw [hu.list]
    by_cases hid : id' = id
    · rw [hid, hvec]
      exact hoff.enqueue v
    · rw [hu.but.other id' hid] at hup ⊢
      exact (h.law.list id' hlt' hup).congr (fun j => count_enqueue hid v j)

/-- **A queue that is not up** stays so, and is perhaps unlinked. -/
theorem VecInv.down {x x' : QdmaDev} (h : VecInv x) {id : ℕ} (hlt : id < 2 * x.qmax)
    (hb : VecsBut id x x') (hoff : (x'.descq id).online = false)
    (hlist : ∀ b, b ≠ id → ∀ j, (x'.intrList j).count b = (x.intrList j).count b)
    (hcnt : ∀ v, x'.intrListCnt v
      = x.intrListCnt v
        - (if (x.descq id).online = true ∧ (x.descq id).intrId = v then 1 else 0)) :
    VecInv x' := by
  have hne : ∀ id', (x'.descq id').online = true → id' ≠ id := by
    rintro id' hup rfl
    rw [hoff] at hup
    exact absurd hup (by decide)
  refine ⟨hb.numVecs ▸ h.numVecs, hb.coal.trans h.noAgg, fun id' hlt' hup => ?_,
    ⟨fun w => ?_, fun id' hlt' hup => ?_, fun id' hlt' hup => ?_⟩⟩
  · have hid := hne id' hup
    rw [hb.qmax] at hlt'
    rw [hb.other id' hid] at hup ⊢
    exact h.enabled id' hlt' hup
  · have hstep := startedOn_step hb hlt w
    rw [hoff, if_neg (show ¬ (false = true ∧ _) by simp)] at hstep
    rw [hcnt, h.law.cnt]
    omega
  · have hid := hne id' hup
    rw [hb.qmax] at hlt'
    rw [hb.dvec, hb.numVecs]
    rw [hb.other id' hid] at hup ⊢
    exact h.law.range id' hlt' hup
  · have hid := hne id' hup
    rw [hb.qmax] at hlt'
    rw [hb.other id' hid] at hup ⊢
    exact (h.law.list id' hlt' hup).congr (fun j => hlist id' hid j)

/-! ## Adding and configuring -/

theorem SameVecs.trans {x y z : QdmaDev} (h : SameVecs x y) (h' : SameVecs y z) : SameVecs x z :=
  ⟨h'.qmax.trans h.qmax, h'.numVecs.trans h.numVecs, h'.dvec.trans h.dvec, h'.coal.trans h.coal,
    fun id => (h'.tags id).trans (h.tags id), h'.list.trans h.list, h'.cnt.trans h.cnt⟩

/-- The vectors are as they were, and no queue is disabled. -/
structure KeepsVectors (x x' : QdmaDev) : Prop where
  same : SameVecs x x'
  enabled : ∀ id, (x.descq id).enabled = true → (x'.descq id).enabled = true

theorem KeepsVectors.refl (x : QdmaDev) : KeepsVectors x x := ⟨.refl x, fun _ h => h⟩

theorem KeepsVectors.trans {x y z : QdmaDev} (h : KeepsVectors x y) (h' : KeepsVectors y z) :
    KeepsVectors x z :=
  ⟨h.same.trans h'.same, fun id hen => h'.enabled id (h.enabled id hen)⟩

theorem setDescq_keepsVectors (x : QdmaDev) {id : ℕ} {d : Descq}
    (htags : (d.online, d.intrId) = ((x.descq id).online, (x.descq id).intrId))
    (hen : (x.descq id).enabled = true → d.enabled = true) : KeepsVectors x (x.setDescq id d) := by
  refine ⟨⟨rfl, rfl, rfl, rfl, fun id' => ?_, rfl, rfl⟩, fun id' hen' => ?_⟩
  · by_cases hid : id' = id
    · rw [hid, setDescq_self, htags]
    · rw [setDescq_of_ne _ _ hid]
  · by_cases hid : id' = id
    · rw [hid, setDescq_self]
      exact hen (hid ▸ hen')
    · rw [setDescq_of_ne _ _ hid]
      exact hen'

theorem count_keepsVectors (x : QdmaDev) (b : Bool) : KeepsVectors x (x.count b) := by
  cases b <;> exact ⟨⟨rfl, rfl, rfl, rfl, fun _ => rfl, rfl, rfl⟩, fun _ h => h⟩

theorem uncount_keepsVectors (x : QdmaDev) (b : Bool) : KeepsVectors x (x.uncount b) := by
  cases b <;> exact ⟨⟨rfl, rfl, rfl, rfl, fun _ => rfl, rfl, rfl⟩, fun _ h => h⟩

theorem enable_keepsVectors (x : QdmaDev) (id : ℕ) :
    KeepsVectors x (x.setDescq id { x.descq id with enabled := true }) :=
  setDescq_keepsVectors x (by rfl) (fun _ => by rfl)

theorem config_keepsVectors (x : QdmaDev) (id : ℕ) (qconf : QueueConf) (n : ℕ) :
    KeepsVectors x (x.setDescq id (qdmaDescqConfig (x.descq id) qconf false n)) := by
  apply setDescq_keepsVectors
  · rfl
  · intro hen
    exact hen

/-- `qdma_queue_add` leaves the vectors alone. -/
theorem queueAdd_keepsVectors (x : QdmaDev) (c : AddCall) : KeepsVectors x (x.queueAdd c).1 := by
  rcases queueAdd_cases x c with ⟨qconf, -, heq⟩ | ⟨-, ⟨n, hsame, -⟩, -⟩
  swap
  · rw [hsame]
    exact ⟨⟨rfl, rfl, rfl, rfl, fun _ => rfl, rfl, rfl⟩, fun _ h => h⟩
  have hcount := count_keepsVectors x qconf.c2h
  rw [heq]
  unfold QdmaDev.queueClaim
  cases (x.count qconf.c2h).findQueue qconf with
  | error e =>
      simp only
      by_cases htr : truncated c.buflen e.2 = true
      · rw [if_pos htr]
        exact hcount
      · rw [if_neg htr]
        exact hcount.trans (uncount_keepsVectors _ _)
  | ok i =>
      simp only
      have hen := hcount.trans (enable_keepsVectors _ ((x.count qconf.c2h).queueId qconf.c2h i))
      by_cases hp : c.prep < 0
      · rw [if_pos hp]
        exact hen.trans (uncount_keepsVectors _ _)
      · rw [if_neg hp]
        exact hen.trans (config_keepsVectors _ _ _ _)

/-- Nor does `qdma_queue_config` touch them. -/
theorem queueConfig_keepsVectors (x : QdmaDev) (qid : ℕ) (qconf : QueueConf) :
    KeepsVectors x (x.queueConfig qid qconf).1 := by
  unfold QdmaDev.queueConfig
  by_cases h1 : x.gone = true
  · rw [if_pos h1]
    exact .refl x
  by_cases h2 : qid ≥ 2 * x.qmax
  · rw [if_neg h1, if_pos h2]
    exact .refl x
  by_cases h3 : (x.descq qid).enabled = true
  · rw [if_neg h1, if_neg h2, if_pos h3]
    exact .refl x
  · rw [if_neg h1, if_neg h2, if_neg h3]
    exact ((enable_keepsVectors x qid).trans (count_keepsVectors _ _)).trans
      (config_keepsVectors _ _ _ _)

/-- Nor `qdma_queue_reconfig`. -/
theorem queueReconfig_keepsVectors (x : QdmaDev) (id : ℕ) (qconf : QueueConf) :
    KeepsVectors x (x.queueReconfig id qconf) := by
  unfold QdmaDev.queueReconfig
  split_ifs
  · unfold descqReconfig
    split_ifs
    · exact setDescq_keepsVectors x rfl (fun h => h)
    · exact setDescq_keepsVectors x rfl (fun h => h)
  · exact .refl x

/-! ## All calls -/

/-- A queue that is not started is stopped. -/
theorem VecInv.stop {x : QdmaDev} (h : VecInv x) {id : ℕ} (ctxCleared : Bool)
    (hok : x.Has id → (x.descq id).online = false) : VecInv (x.queueStop id ctxCleared) := by
  by_cases hhas : x.Has id
  swap
  · rw [show x.queueStop id ctxCleared = x from if_neg hhas]
    exact h
  obtain ⟨hbut, htags, hcnt, hlist⟩ := queueStop_vecs hhas ctxCleared
  refine h.down hhas.2.1 hbut (congrArg (·.2.1) htags) hlist (fun v => ?_)
  rw [hcnt, hok hhas, if_neg (by simp), Nat.sub_zero]

/-- A queue that is started, or whose vector has no count, is removed. -/
theorem VecInv.remove {x : QdmaDev} (h : VecInv x) {id : ℕ} (ctxCleared : Bool)
    (hok : x.Has id → (x.descq id).online = true ∨ x.intrListCnt (x.descq id).intrId = 0) :
    VecInv (x.queueRemove id ctxCleared) := by
  by_cases hhas : x.Has id
  swap
  · rw [show x.queueRemove id ctxCleared = x from if_neg hhas]
    exact h
  unfold QdmaDev.queueRemove
  rw [if_pos hhas]
  simp only
  set x1 := x.setDescq id { x.descq id with inited := false, online := false } with hx1
  have hvec1 : (x1.descq id).intrId = (x.descq id).intrId := by rw [hx1, setDescq_self]
  have hoff1 : (x1.descq id).online = false := by rw [hx1, setDescq_self]
  have hn1 : 0 < x1.numVecs := h.numVecs
  obtain ⟨hbut, -, -, hoff, hlist, hcnt⟩ := descqCleanup_vecs hn1 id ctxCleared
  rw [hvec1] at hcnt
  set x2 := x1.descqCleanup id ctxCleared with hx2
  set x3 := x2.setDescq id { x2.descq id with enabled := false } with hx3
  have hu := (uncount_keepsVectors x3 (x3.descq id).conf.c2h).same
  have hb3 : VecsBut id x x3 :=
    ((setDescq_vecsBut x id _).trans hbut).trans (setDescq_vecsBut x2 id _)
  have hoff3 : (x3.descq id).online = false := by
    rw [hx3, setDescq_self]
    exact hoff hoff1
  have hinv3 : VecInv x3 := by
    refine h.down hhas.2.1 hb3 hoff3 (fun b _ j => congrArg (fun l => (l j).count b) hlist)
      (fun v => ?_)
    show x2.intrListCnt v = _
    rw [hcnt]
    show Function.update x.intrListCnt (x.descq id).intrId
      (x.intrListCnt (x.descq id).intrId - 1) v = _
    by_cases hv : v = (x.descq id).intrId
    · subst hv
      rw [Function.update_self]
      rcases hok hhas with hon | hz
      · rw [if_pos ⟨hon, rfl⟩]
      · rw [hz, Nat.zero_sub, Nat.zero_sub]
    · rw [Function.update_of_ne hv, if_neg (fun hc => hv hc.2.symm), Nat.sub_zero]
  refine hinv3.same hu (fun id' _ hen => ?_)
  exact (uncount_keepsVectors x3 (x3.descq id).conf.c2h).enabled id' hen

/-- Stopping the queues `ids`, one after the other. -/
theorem stopAll_vecs (ctxCleared : ℕ → Bool) (ids : List ℕ) (x : QdmaDev) :
    let x' := ids.foldl (fun x id => x.queueStop id (ctxCleared id)) x
    x'.qmax = x.qmax ∧ x'.numVecs = x.numVecs ∧ x'.intrCoalEn = x.intrCoalEn ∧
      x'.gone = x.gone ∧ x'.intrListCnt = x.intrListCnt ∧
      ∀ id, (x'.descq id).enabled = (x.descq id).enabled ∧
        (x'.descq id).intrId = (x.descq id).intrId ∧
        ((x.descq id).online = false → (x'.descq id).online = false) ∧
        (id ∈ ids → x.Has id → (x'.descq id).online = false) := by
  induction ids generalizing x with
  | nil =>
      exact ⟨rfl, rfl, rfl, rfl, rfl, fun _ => ⟨rfl, rfl, fun h => h,
        fun hmem => absurd hmem List.not_mem_nil⟩⟩
  | cons a ids ih =>
      rw [List.foldl_cons]
      obtain ⟨hq, hn, hc, hg, hcnt, hall⟩ := ih (x.queueStop a (ctxCleared a))
      by_cases hhas : x.Has a
      swap
      · rw [show x.queueStop a (ctxCleared a) = x from if_neg hhas] at hq hn hc hg hcnt hall ⊢
        refine ⟨hq, hn, hc, hg, hcnt, fun id => ?_⟩
        obtain ⟨h1, h2, h3, h4⟩ := hall id
        refine ⟨h1, h2, h3, fun hmem hid => ?_⟩
        rcases List.mem_cons.mp hmem with rfl | hmem
        · exact absurd hid hhas
        · exact h4 hmem hid
      · obtain ⟨hbut, htags, hcnt1, -⟩ := queueStop_vecs hhas (ctxCleared a)
        have hsame := queueStop_sameIds x a (ctxCleared a)
        refine ⟨hq.trans hbut.qmax, hn.trans hbut.numVecs, hc.trans hbut.coal,
          hg.trans hsame.gone, hcnt.trans hcnt1, fun id => ?_⟩
        obtain ⟨h1, h2, h3, h4⟩ := hall id
        by_cases hid : id = a
        · subst hid
          refine ⟨h1.trans (hsame.enabled id), h2.trans (congrArg (·.2.2) htags), fun _ => ?_,
            fun _ _ => ?_⟩
          · exact h3 (congrArg (·.2.1) htags)
          · exact h3 (congrArg (·.2.1) htags)
        · have hother := hbut.other id hid
          rw [hother] at h1 h2 h3
          refine ⟨h1, h2, h3, fun hmem hh => ?_⟩
          rcases List.mem_cons.mp hmem with rfl | hmem
          · exact absurd rfl hid
          · refine h4 hmem ⟨?_, ?_, ?_⟩
            · rw [hsame.gone]
              exact hh.1
            · rw [hsame.qmax]
              exact hh.2.1
            · rw [hsame.enabled]
              exact hh.2.2

/-- Cleaning the queues `ids` up, one after the other: each counts one less on its vector. -/
theorem cleanupAll_vecs (ctxCleared : ℕ → Bool) (ids : List ℕ) {x : QdmaDev}
    (hn : 0 < x.numVecs) :
    let x' := ids.foldl (fun x id => x.descqCleanup id (ctxCleared id)) x
    x'.qmax = x.qmax ∧ x'.numVecs = x.numVecs ∧ x'.intrCoalEn = x.intrCoalEn ∧
      (∀ id, (x'.descq id).intrId = (x.descq id).intrId ∧
        ((x.descq id).online = false → (x'.descq id).online = false)) ∧
      ∀ v, x'.intrListCnt v
        = x.intrListCnt v - (ids.filter (fun id => (x.descq id).intrId = v)).length := by
  induction ids generalizing x with
  | nil => exact ⟨rfl, rfl, rfl, fun _ => ⟨rfl, fun h => h⟩, fun v => rfl⟩
  | cons a ids ih =>
      obtain ⟨hbut, -, hvec, hoff, -, hcnt⟩ := descqCleanup_vecs hn a (ctxCleared a)
      have hn' : 0 < (x.descqCleanup a (ctxCleared a)).numVecs := hbut.numVecs ▸ hn
      rw [List.foldl_cons]
      obtain ⟨hq, hnum, hc, hall, hcnt'⟩ := ih hn'
      have hvecs : ∀ id, ((x.descqCleanup a (ctxCleared a)).descq id).intrId
          = (x.descq id).intrId := by
        intro id
        by_cases hid : id = a
        · rw [hid, hvec]
        · rw [hbut.other id hid]
      refine ⟨hq.trans hbut.qmax, hnum.trans hbut.numVecs, hc.trans hbut.coal, fun id => ?_,
        fun v => ?_⟩
      · refine ⟨(hall id).1.trans (hvecs id), fun ho => (hall id).2 ?_⟩
        by_cases hid : id = a
        · rw [hid] at ho ⊢
          exact hoff ho
        · rw [hbut.other id hid]
          exact ho
      · rw [hcnt', hcnt]
        simp only [hvecs]
        rw [List.filter_cons]
        by_cases hv : (x.descq a).intrId = v
        · subst hv
          rw [Function.update_self, if_pos (decide_eq_true rfl), List.length_cons]
          omega
        · rw [Function.update_of_ne (fun heq => hv heq.symm), if_neg (by simpa using hv)]

/-- **The end of the device**: no queue is started, and no vector has a count. -/
theorem VecInv.cleanup {x : QdmaDev} (h : VecInv x) (ctxCleared : ℕ → Bool) :
    VecInv (x.deviceCleanup ctxCleared) := by
  unfold QdmaDev.deviceCleanup
  by_cases hg : x.gone = true
  · rw [if_pos hg]
    exact h
  rw [if_neg hg]
  simp only
  obtain ⟨hq1, hn1, hc1, hg1, hcnt1, hall1⟩ := stopAll_vecs ctxCleared (List.range (2 * x.qmax)) x
  set x1 := (List.range (2 * x.qmax)).foldl (fun x id => x.queueStop id (ctxCleared id)) x with hx1
  obtain ⟨hq2, hn2, hc2, hall2, hcnt2⟩ := cleanupAll_vecs ctxCleared (List.range (2 * x.qmax))
    (x := x1) (by rw [hn1]; exact h.numVecs)
  set x2 := (List.range (2 * x.qmax)).foldl (fun x id => x.descqCleanup id (ctxCleared id)) x1
    with hx2
  have hoff : ∀ id < 2 * x.qmax, (x2.descq id).online = false := by
    intro id hlt
    refine (hall2 id).2 ?_
    obtain ⟨-, -, hkeep, hstop⟩ := hall1 id
    cases hon : (x.descq id).online with
    | false => exact hkeep hon
    | true =>
        exact hstop (List.mem_range.mpr hlt) ⟨Bool.eq_false_iff.mpr hg, hlt, h.enabled id hlt hon⟩
  have hno : ∀ id < 2 * x2.qmax, (x2.descq id).online ≠ true := by
    intro id hlt hup
    rw [hq2, hq1] at hlt
    rw [hoff id hlt] at hup
    exact absurd hup (by decide)
  refine ⟨?_, ?_, fun id hlt hup => absurd hup (hno id hlt),
    ⟨fun v => ?_, fun id hlt hup => absurd hup (hno id hlt),
      fun id hlt hup => absurd hup (hno id hlt)⟩⟩
  · show 0 < x2.numVecs
    rw [hn2, hn1]
    exact h.numVecs
  · show x2.intrCoalEn = false
    rw [hc2, hc1]
    exact h.noAgg
  · have hempty : ({ x2 with gone := true } : QdmaDev).startedOn v = ∅ := by
      refine Finset.filter_eq_empty_iff.mpr (fun id hid hup => ?_)
      exact hno id (Finset.mem_range.mp hid) hup.1
    rw [hempty, Finset.card_empty]
    show x2.intrListCnt v = 0
    rw [hcnt2, hcnt1, h.law.cnt]
    -- the queues started on `v` are among those cleaned up
    have hle : (x.startedOn v).card
        ≤ ((List.range (2 * x.qmax)).filter (fun id => (x1.descq id).intrId = v)).length := by
      have hsub : x.startedOn v
          ⊆ ((List.range (2 * x.qmax)).filter (fun id => (x1.descq id).intrId = v)).toFinset := by
        intro id hid
        obtain ⟨hlt, hup⟩ := Finset.mem_filter.mp hid
        rw [List.mem_toFinset, List.mem_filter, List.mem_range]
        refine ⟨Finset.mem_range.mp hlt, decide_eq_true ?_⟩
        rw [(hall1 id).2.1]
        exact hup.2
      exact (Finset.card_le_card hsub).trans (List.toFinset_card_le _)
    omega

/-- **One call.** -/
theorem VecInv.step {x : QdmaDev} (h : VecInv x) {op : VecOp} (hok : VecLegal x op) :
    VecInv (x.vecStep op) := by
  have hharm : ∀ {x' : QdmaDev}, KeepsVectors x x' → VecInv x' :=
    fun hh => h.same hh.same (fun id _ => hh.enabled id)
  cases op with
  | add c => exact hharm (queueAdd_keepsVectors x c)
  | config qid qconf => exact hharm (queueConfig_keepsVectors x qid qconf)
  | reconfig id qconf => exact hharm (queueReconfig_keepsVectors x id qconf)
  | start id env =>
      by_cases hp : x.StartPicks id env
      · obtain ⟨hd, hctx, hoff⟩ := hok hp
        obtain ⟨v, hpick, hmin⟩ := pickVec_min h.numVecs h.noAgg hd
        exact h.up hp.1.2.1 (queueStart_up hp hctx h.noAgg hpick hmin.lt) hmin hoff
      · exact h.same (queueStart_idle hp)
          (fun id' _ hen => ((queueStart_sameIds x id env).enabled id').trans hen)
  | stop id ctxCleared => exact h.stop ctxCleared hok
  | remove id ctxCleared => exact h.remove ctxCleared hok
  | cleanup ctxCleared => exact h.cleanup ctxCleared

theorem FreshVecs.inv {x : QdmaDev} {funcId : ℕ} (h : FreshVecs x funcId) : VecInv x := by
  have hno : ∀ id < 2 * x.qmax, (x.descq id).online ≠ true := by
    intro id hlt hup
    rw [h.offline id hlt] at hup
    exact absurd hup (by decide)
  refine ⟨h.numVecs, h.noAgg, fun id hlt hup => absurd hup (hno id hlt),
    ⟨fun v => ?_, fun id hlt hup => absurd hup (hno id hlt),
      fun id hlt hup => absurd hup (hno id hlt)⟩⟩
  have hempty : x.startedOn v = ∅ :=
    Finset.filter_eq_empty_iff.mpr (fun id hid hup => hno id (Finset.mem_range.mp hid) hup.1)
  rw [h.cnt, hempty, Finset.card_empty]

/-- **The vectors are kept** in every run of such calls, and a queue that comes up gets one that
had the fewest queues. -/
theorem vector_counts {x₀ x : QdmaDev} {funcId : ℕ} {ops : List VecOp} (h0 : FreshVecs x₀ funcId)
    (hr : Run QdmaDev.vecStep VecLegal x₀ ops x) :
    VecLaw x ∧ ∀ id env, VecLegal x (.start id env) → (x.descq id).online = false →
      ((x.queueStart id env).1.descq id).online = true →
        x.MinVec ((x.queueStart id env).1.descq id).intrId := by
  have h : VecInv x := hr.invariant h0.inv (fun _ _ h hok => h.step hok)
  refine ⟨h.law, fun id env hok hoff hon => ?_⟩
  by_cases hp : x.StartPicks id env
  · obtain ⟨hd, hctx, -⟩ := hok hp
    obtain ⟨v, hpick, hmin⟩ := pickVec_min h.numVecs h.noAgg hd
    have hup := queueStart_up hp hctx h.noAgg hpick hmin.lt
    rw [show ((x.queueStart id env).1.descq id).intrId = v from congrArg (·.2.2) hup.tags]
    exact hmin
  · have hsame := congrArg Prod.fst ((queueStart_idle hp).tags id)
    rw [show ((x.queueStart id env).1.descq id).online = (x.descq id).online from hsame,
      hoff] at hon
    exact absurd hon (by decide)

theorem pairDev_freshVecs {n : ℕ} (hn : 0 < n) : FreshVecs (pairDev n) 1 :=
  ⟨hn, rfl, rfl, fun _ _ => rfl, fun _ => rfl⟩

/-- A queue is added, started and removed while it is started. -/
theorem vector_counts_once : VecLaw
    ([.add { qconf := some {} }, .start 0 workingStart, .remove 0 true].foldl
      QdmaDev.vecStep (pairDev 8)) := by
  rw [List.foldl_cons, List.foldl_cons, List.foldl_cons, List.foldl_nil]
  refine (vector_counts (pairDev_freshVecs (by decide)) (((Run.nil.snoc ?_).snoc ?_).snoc ?_)).1
  · trivial
  · intro _
    exact ⟨by decide +kernel, rfl, fun v => by rfl⟩
  · intro _
    exact .inl (by decide +kernel)

/-- The count of vector 1 is 1, and no queue is started on it. -/
theorem VecLaw.not_of_one {x : QdmaDev} (hcnt : x.intrListCnt 1 = 1)
    (hempty : (x.startedOn 1).card = 0) : ¬ VecLaw x := by
  intro h
  have h10 : 1 = 0 := hcnt.symm.trans ((h.cnt 1).trans hempty)
  exact absurd h10 Nat.one_ne_zero

/-- **The counts drift.**  After a stop, or a start that fails in `qdma_descq_prog_hw`, the count
of the vector stays 1 and no queue is started; and with one vector in all, a queue is given one
that does not exist. -/
theorem vector_counts_drift :
    (FreshVecs (pairDev 8) 1 ∧
      ¬ VecLaw ([.add { qconf := some {} }, .start 0 workingStart, .stop 0 true].foldl
        QdmaDev.vecStep (pairDev 8)) ∧
      ¬ VecLaw ([.add { qconf := some {} }, .start 0 { workingStart with ctx := .fail true }].foldl
        QdmaDev.vecStep (pairDev 8))) ∧
    FreshVecs (pairDev 1) 1 ∧
      ¬ VecLaw ([.add { qconf := some {} }, .start 0 workingStart].foldl
        QdmaDev.vecStep (pairDev 1)) := by
  refine ⟨⟨pairDev_freshVecs (by decide), ?_, ?_⟩, pairDev_freshVecs (by decide), ?_⟩
  · apply VecLaw.not_of_one
    · decide +kernel
    · decide +kernel
  · apply VecLaw.not_of_one
    · decide +kernel
    · decide +kernel
  · intro h
    have hlt := (h.range 0 (by decide +kernel) (by decide +kernel)).2
    exact absurd hlt (by decide +kernel)

end Qdma
