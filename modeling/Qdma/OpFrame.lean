/-
# What the queue operations leave as it is

Starting, stopping, reconfiguring and removing a queue, function by function: which queues are
enabled and online afterwards, and on which vector.  `Descq.tags` has the three of one queue,
`SameIds` says that a device offers the same queues.
-/
import Qdma.Counters

namespace Qdma

/-! ## One queue -/

/-- Whether a queue is enabled and online, and its vector. -/
def Descq.tags (d : Descq) : Bool × Bool × ℕ := (d.enabled, d.online, d.intrId)

theorem tags_frame : RingFrame Descq.tags :=
  ⟨fun _ _ _ _ _ => rfl, fun _ _ => rfl, fun _ _ => rfl⟩

@[simp] theorem freeResource_tags (d : Descq) : (qdmaDescqFreeResource d).tags = d.tags :=
  tags_frame.free d

@[simp] theorem startFreeResource_tags (d : Descq) : (startFreeResource d).tags = d.tags :=
  freeResource_tags d

@[simp] theorem contextClear_tags (d : Descq) (cleared : Bool) :
    (qdmaDescqContextClear d cleared).tags = d.tags := rfl

/-- Allocating the resources changes the vector only, and this only if it succeeds. -/
theorem allocResource_tags (d : Descq) (env : AllocEnv) (irq : Option ℕ) :
    (qdmaDescqAllocResource d env irq).1.tags
      = (d.enabled, d.online,
          if (qdmaDescqAllocResource d env irq).2 < 0 then d.intrId else irq.getD d.intrId) := by
  have hneg : qdmaErrOutOfMemory < 0 := by decide
  have htags := tags_frame.allocRings d env
  rw [allocResource_eq]
  by_cases hrv : (allocRings d env).2 < 0
  · rw [if_pos hrv, if_pos hneg, freeResource_tags, htags]
    rfl
  · rw [if_neg hrv, if_neg (lt_irrefl (0 : ℤ))]
    unfold Descq.tags at htags ⊢
    obtain ⟨hen, hon, hid⟩ : (allocRings d env).1.enabled = d.enabled ∧
        (allocRings d env).1.online = d.online ∧
        (allocRings d env).1.intrId = d.intrId := by simpa using htags
    rw [← hen, ← hon, ← hid]

theorem progHw_tags (d : Descq) (ctx : CtxOutcome) : (qdmaDescqProgHw d ctx).1.tags = d.tags := by
  unfold qdmaDescqProgHw
  cases ctx with
  | fail valid => rfl
  | ok =>
      simp only
      split_ifs <;> rfl

@[simp] theorem startConfig_tags (d : Descq) (csr : Option GlobalCsrConf) :
    (startConfig d csr).1.tags = d.tags := by
  cases csr with
  | none => exact startFreeResource_tags d
  | some csr =>
      show (qdmaDescqConfigComplete d csr).tags = d.tags
      unfold qdmaDescqConfigComplete
      simp only
      split_ifs <;> rfl

@[simp] theorem startCheck_tags (d : Descq) : (startCheck d).1.tags = d.tags := by
  unfold startCheck
  split_ifs <;> rfl

/-- The second locked section of a start sets `online`, if it succeeds. -/
theorem startProgHw_tags (d : Descq) (rv : ℤ) (env : StartEnv) :
    (startProgHw d rv env).1.tags
      = (d.enabled, if (startProgHw d rv env).2 < 0 then d.online else true, d.intrId) := by
  unfold startProgHw
  by_cases hrv : rv < 0
  · rw [if_pos hrv, if_pos hrv, startFreeResource_tags]
    rfl
  · rw [if_neg hrv]
    simp only
    have hprog := progHw_tags d env.ctx
    by_cases hrv' : (qdmaDescqProgHw d env.ctx).2 < 0
    · simp only [if_pos hrv', startFreeResource_tags, contextClear_tags, hprog]
      rfl
    · simp only [if_neg hrv', lt_irrefl, if_false]
      unfold Descq.tags at hprog ⊢
      obtain ⟨hen, -, hid⟩ : (qdmaDescqProgHw d env.ctx).1.enabled = d.enabled ∧
          (qdmaDescqProgHw d env.ctx).1.online = d.online ∧
          (qdmaDescqProgHw d env.ctx).1.intrId = d.intrId := by simpa using hprog
      rw [← hen, ← hid]
      rfl

theorem Descq.enabled_of_tags {d d' : Descq} (h : d'.tags = d.tags) : d'.enabled = d.enabled :=
  congrArg (·.1) h

/-! ## The device -/

/-- The device offers the same queues. -/
structure SameIds (x x' : QdmaDev) : Prop where
  vf : x'.vf = x.vf
  qmax : x'.qmax = x.qmax
  gone : x'.gone = x.gone
  enabled : ∀ id, (x'.descq id).enabled = (x.descq id).enabled

theorem SameIds.refl (x : QdmaDev) : SameIds x x := ⟨rfl, rfl, rfl, fun _ => rfl⟩

theorem SameIds.trans {x y z : QdmaDev} (h : SameIds x y) (h' : SameIds y z) : SameIds x z :=
  ⟨h'.vf.trans h.vf, h'.qmax.trans h.qmax, h'.gone.trans h.gone,
    fun id => (h'.enabled id).trans (h.enabled id)⟩

theorem setDescq_sameIds (x : QdmaDev) {id : ℕ} {d : Descq}
    (h : d.enabled = (x.descq id).enabled) : SameIds x (x.setDescq id d) := by
  refine ⟨rfl, rfl, rfl, fun id' => ?_⟩
  by_cases hid : id' = id
  · rw [hid, setDescq_self, h]
  · rw [setDescq_of_ne _ _ hid]

theorem threadAssign_sameIds (x : QdmaDev) (id : ℕ) (rq cmpl : Option ℕ) :
    SameIds x (x.threadAssign id rq cmpl) := by
  unfold QdmaDev.threadAssign
  exact setDescq_sameIds x rfl

theorem threadAddWork_sameIds (x : QdmaDev) (id : ℕ) : SameIds x (x.threadAddWork id) := by
  have hlink : SameIds x (x.threadLink id) := ⟨rfl, rfl, rfl, fun _ => rfl⟩
  exact hlink.trans (threadAssign_sameIds _ id _ _)

theorem unlinkWrk_sameIds (x : QdmaDev) (id : ℕ) (rq : Option ℕ) :
    SameIds x (x.unlinkWrk id rq) := by
  cases rq <;> exact ⟨rfl, rfl, rfl, fun _ => rfl⟩

theorem unlinkWb_sameIds (x : QdmaDev) (id : ℕ) (cmpl : Option ℕ) :
    SameIds x (x.unlinkWb id cmpl) := by
  cases cmpl <;> exact ⟨rfl, rfl, rfl, fun _ => rfl⟩

theorem threadRemoveWork_sameIds (x : QdmaDev) (id : ℕ) : SameIds x (x.threadRemoveWork id) :=
  ((threadAssign_sameIds x id none none).trans (unlinkWrk_sameIds _ id _)).trans
    (unlinkWb_sameIds _ id _)

theorem intrLink_sameIds (x : QdmaDev) (id : ℕ) : SameIds x (x.intrLink id) := by
  unfold QdmaDev.intrLink
  simp only
  split_ifs <;> exact ⟨rfl, rfl, rfl, fun _ => rfl⟩

theorem intrUnlink_sameIds (x : QdmaDev) (id : ℕ) : SameIds x (x.intrUnlink id) := by
  unfold QdmaDev.intrUnlink
  simp only
  split_ifs <;> exact ⟨rfl, rfl, rfl, fun _ => rfl⟩

theorem countVec_sameIds (x : QdmaDev) : SameIds x x.countVec := by
  unfold QdmaDev.countVec
  cases x.pickVec with
  | none => exact .refl x
  | some v =>
      simp only
      split_ifs <;> exact ⟨rfl, rfl, rfl, fun _ => rfl⟩

theorem descFreeIrq_sameIds (x : QdmaDev) (id : ℕ) : SameIds x (x.descFreeIrq id) := by
  unfold QdmaDev.descFreeIrq
  simp only
  split_ifs <;> exact ⟨rfl, rfl, rfl, fun _ => rfl⟩

theorem count_sameIds (x : QdmaDev) (b : Bool) : SameIds x (x.count b) := by
  cases b <;> exact ⟨rfl, rfl, rfl, fun _ => rfl⟩

theorem uncount_sameIds (x : QdmaDev) (b : Bool) : SameIds x (x.uncount b) := by
  cases b <;> exact ⟨rfl, rfl, rfl, fun _ => rfl⟩

theorem startFinish_sameIds (x : QdmaDev) (id : ℕ) (rv : ℤ) (env : StartEnv) :
    SameIds x (x.startFinish id rv env).1 := by
  have hen : (startProgHw (x.descq id) rv env).1.enabled = (x.descq id).enabled :=
    congrArg (·.1) (startProgHw_tags (x.descq id) rv env)
  have hset := setDescq_sameIds x hen
  unfold QdmaDev.startFinish
  simp only
  split_ifs
  · exact hset
  · exact (hset.trans (threadAddWork_sameIds _ id)).trans (intrLink_sameIds _ id)

/-- `qdma_queue_start` offers the same queues. -/
theorem queueStart_sameIds (x : QdmaDev) (id : ℕ) (env : StartEnv) :
    SameIds x (x.queueStart id env).1 := by
  unfold QdmaDev.queueStart
  by_cases hhas : x.Has id
  swap
  · rw [if_neg hhas]
    exact .refl x
  rw [if_pos hhas]
  simp only
  have hcfg : (startConfig (x.descq id) env.csr).1.enabled = (x.descq id).enabled :=
    Descq.enabled_of_tags (startConfig_tags _ _)
  generalize startConfig (x.descq id) env.csr = r at hcfg
  by_cases hrv : r.2 < 0
  · rw [if_pos hrv]
    exact setDescq_sameIds x hcfg
  rw [if_neg hrv]
  have hchk : (startCheck r.1).1.enabled = (x.descq id).enabled :=
    (Descq.enabled_of_tags (startCheck_tags _)).trans hcfg
  generalize startCheck r.1 = r1 at hchk
  by_cases hrv1 : r1.2 < 0
  · rw [if_pos hrv1]
    exact setDescq_sameIds x hchk
  rw [if_neg hrv1]
  have halloc : (qdmaDescqAllocResource r1.1 env.alloc x.pickVec).1.enabled
      = (x.descq id).enabled :=
    (congrArg (·.1) (allocResource_tags r1.1 env.alloc x.pickVec)).trans hchk
  generalize qdmaDescqAllocResource r1.1 env.alloc x.pickVec = r2 at halloc
  have hset := setDescq_sameIds x halloc
  by_cases hrv2 : r2.2 < 0
  · rw [if_pos hrv2]
    exact hset.trans (startFinish_sameIds _ id _ env)
  · rw [if_neg hrv2]
    exact (hset.trans (countVec_sameIds _)).trans (startFinish_sameIds _ id _ env)

/-- `qdma_queue_stop` does. -/
theorem queueStop_sameIds (x : QdmaDev) (id : ℕ) (ctxCleared : Bool) :
    SameIds x (x.queueStop id ctxCleared) := by
  unfold QdmaDev.queueStop
  split_ifs
  · refine ((threadRemoveWork_sameIds x id).trans (intrUnlink_sameIds _ id)).trans
      (setDescq_sameIds _ ?_)
    show (qdmaDescqFreeResource (qdmaDescqContextClear _ ctxCleared)).enabled = _
    exact Descq.enabled_of_tags (freeResource_tags _)
  · exact .refl x

/-- So does `qdma_descq_cleanup`. -/
theorem descqCleanup_sameIds (x : QdmaDev) (id : ℕ) (ctxCleared : Bool) :
    SameIds x (x.descqCleanup id ctxCleared) := by
  unfold QdmaDev.descqCleanup
  simp only
  refine ((setDescq_sameIds x ?_).trans (descFreeIrq_sameIds _ id)).trans (setDescq_sameIds _ ?_)
  · split_ifs <;> rfl
  · exact Descq.enabled_of_tags (freeResource_tags _)

/-- So does `qdma_queue_reconfig`. -/
theorem queueReconfig_sameIds (x : QdmaDev) (id : ℕ) (qconf : QueueConf) :
    SameIds x (x.queueReconfig id qconf) := by
  unfold QdmaDev.queueReconfig
  split_ifs
  · refine setDescq_sameIds x ?_
    unfold descqReconfig
    split_ifs <;> rfl
  · exact .refl x

/-! ## What is fixed -/

/-- What no call on a queue changes: the driver, the numbers of queues and of vectors, and
whether interrupts are aggregated. -/
def QdmaDev.fixed (x : QdmaDev) : Bool × Bool × ℕ × ℕ × ℕ × Bool :=
  (x.vf, x.gone, x.qmax, x.numVecs, x.dvecStartIdx, x.intrCoalEn)

@[simp] theorem setDescq_fixed (x : QdmaDev) (id : ℕ) (d : Descq) :
    (x.setDescq id d).fixed = x.fixed := rfl

@[simp] theorem threadAddWork_fixed (x : QdmaDev) (id : ℕ) : (x.threadAddWork id).fixed = x.fixed :=
  rfl

@[simp] theorem threadRemoveWork_fixed (x : QdmaDev) (id : ℕ) :
    (x.threadRemoveWork id).fixed = x.fixed := by
  unfold QdmaDev.threadRemoveWork
  cases (x.descq id).wrkthp <;> cases (x.descq id).wbthp <;> rfl

@[simp] theorem intrLink_fixed (x : QdmaDev) (id : ℕ) : (x.intrLink id).fixed = x.fixed := by
  unfold QdmaDev.intrLink
  simp only
  split_ifs <;> rfl

@[simp] theorem intrUnlink_fixed (x : QdmaDev) (id : ℕ) : (x.intrUnlink id).fixed = x.fixed := by
  unfold QdmaDev.intrUnlink
  simp only
  split_ifs <;> rfl

@[simp] theorem countVec_fixed (x : QdmaDev) : x.countVec.fixed = x.fixed := by
  unfold QdmaDev.countVec
  cases x.pickVec with
  | none => rfl
  | some v =>
      simp only
      split_ifs <;> rfl

@[simp] theorem descFreeIrq_fixed (x : QdmaDev) (id : ℕ) : (x.descFreeIrq id).fixed = x.fixed := by
  unfold QdmaDev.descFreeIrq
  simp only
  split_ifs <;> rfl

@[simp] theorem count_fixed (x : QdmaDev) (b : Bool) : (x.count b).fixed = x.fixed := by
  cases b <;> rfl

@[simp] theorem uncount_fixed (x : QdmaDev) (b : Bool) : (x.uncount b).fixed = x.fixed := by
  cases b <;> rfl

@[simp] theorem startFinish_fixed (x : QdmaDev) (id : ℕ) (rv : ℤ) (env : StartEnv) :
    (x.startFinish id rv env).1.fixed = x.fixed := by
  unfold QdmaDev.startFinish
  simp only
  split_ifs <;> simp

theorem queueStart_fixed (x : QdmaDev) (id : ℕ) (env : StartEnv) :
    (x.queueStart id env).1.fixed = x.fixed := by
  unfold QdmaDev.queueStart
  by_cases hhas : x.Has id
  swap
  · rw [if_neg hhas]
  rw [if_pos hhas]
  simp only
  generalize startConfig (x.descq id) env.csr = r
  by_cases hrv : r.2 < 0
  · rw [if_pos hrv]
    rfl
  rw [if_neg hrv]
  generalize startCheck r.1 = r1
  by_cases hrv1 : r1.2 < 0
  · rw [if_pos hrv1]
    rfl
  rw [if_neg hrv1, startFinish_fixed]
  split_ifs <;> simp

theorem queueStop_fixed (x : QdmaDev) (id : ℕ) (ctxCleared : Bool) :
    (x.queueStop id ctxCleared).fixed = x.fixed := by
  unfold QdmaDev.queueStop
  split_ifs <;> simp

@[simp] theorem descqCleanup_fixed (x : QdmaDev) (id : ℕ) (ctxCleared : Bool) :
    (x.descqCleanup id ctxCleared).fixed = x.fixed := by
  unfold QdmaDev.descqCleanup
  simp

theorem queueRemove_fixed (x : QdmaDev) (id : ℕ) (ctxCleared : Bool) :
    (x.queueRemove id ctxCleared).fixed = x.fixed := by
  unfold QdmaDev.queueRemove
  split_ifs <;> simp

theorem queueReconfig_fixed (x : QdmaDev) (id : ℕ) (qconf : QueueConf) :
    (x.queueReconfig id qconf).fixed = x.fixed := by
  unfold QdmaDev.queueReconfig
  split_ifs <;> simp

theorem queueConfig_fixed (x : QdmaDev) (qid : ℕ) (qconf : QueueConf) :
    (x.queueConfig qid qconf).1.fixed = x.fixed := by
  unfold QdmaDev.queueConfig
  split_ifs <;> simp

theorem queueClaim_fixed (x : QdmaDev) (c : AddCall) (qconf : QueueConf) :
    (x.queueClaim c qconf).1.fixed = x.fixed := by
  unfold QdmaDev.queueClaim
  cases x.findQueue qconf with
  | error e =>
      simp only
      split_ifs <;> simp
  | ok i =>
      simp only
      split_ifs <;> simp

/-- Nor does `qdma_queue_add` change it. -/
theorem queueAdd_fixed (x : QdmaDev) (c : AddCall) : (x.queueAdd c).1.fixed = x.fixed := by
  unfold QdmaDev.queueAdd
  cases c.qconf with
  | none => rfl
  | some qconf =>
      simp only
      split_ifs <;> first
        | rfl
        | exact (queueClaim_fixed _ c qconf).trans (count_fixed x qconf.c2h)

/-- The end of a device leaves all but the device. -/
theorem deviceCleanup_fixed (x : QdmaDev) (ctxCleared : ℕ → Bool) :
    (x.deviceCleanup ctxCleared).fixed = { x with gone := true }.fixed := by
  have hfold : ∀ (f : QdmaDev → ℕ → QdmaDev), (∀ x id, (f x id).fixed = x.fixed) →
      ∀ (ids : List ℕ) (x : QdmaDev), (ids.foldl f x).fixed = x.fixed := by
    intro f hf ids
    induction ids with
    | nil => exact fun _ => rfl
    | cons id ids ih => exact fun x => (ih _).trans (hf x id)
  have hgone : ∀ {y : QdmaDev}, y.fixed = x.fixed →
      { y with gone := true }.fixed = { x with gone := true }.fixed := by
    intro y hy
    exact congrArg (fun t : Bool × Bool × ℕ × ℕ × ℕ × Bool => (t.1, true, t.2.2)) hy
  unfold QdmaDev.deviceCleanup
  split_ifs with hg
  · exact congrArg (fun b => (x.vf, b, x.qmax, x.numVecs, x.dvecStartIdx, x.intrCoalEn)) hg
  · refine hgone ((hfold _ (fun x id => descqCleanup_fixed x id _) _ _).trans ?_)
    exact hfold _ (fun x id => queueStop_fixed x id _) _ _

end Qdma
