/-
# Which queues an interrupt reaches

Without aggregation a function uses its vectors as `intr_setup` lays them out: function 0 the first
for errors and the second for the user, the others the first for the user, and the rest for data.
`irq_bottom` looks up the vector of an interrupt, and the handler of a data vector schedules the
work of every queue on the list of the vector.

`interrupt_reaches` says which queues that is, after any queue calls: those that are started on the
vector, which is the one their contexts name.
-/
import Qdma.Vectors
import Qdma.Qid2Vec

namespace Qdma

open Exec ListHeads BitField

/-! ## Interrupts -/

/-- `enum intr_type_list`. -/
inductive IntrType where
  | error
  | user
  | data
  deriving DecidableEq

/-- What `intr_setup` puts in `intr_vec_map` for vector `i`. -/
def intrVecMap (funcId i : ℕ) : IntrType :=
  if i = 0 then
    if funcId = 0 then .error else .user
  else if i = 1 then
    if funcId = 0 then .user else .data
  else .data

/-- The `dvec_start_idx` that `intr_setup` sets. -/
def dvecStart (funcId : ℕ) : ℕ := if funcId = 0 then 2 else 1

/-- The interrupts of a function: the numbers the kernel gave its vectors, and whether
`fp_q_isr_top_dev` is set. -/
structure IrqConf where
  funcId : ℕ
  vector : ℕ → ℕ
  topDev : Bool := false

/-- `data_intr_direct`: the queues whose work it schedules. -/
def dataIntrDirect (x : QdmaDev) (vidx : ℕ) : List ℕ := x.intrList vidx

/-- The queues whose work the handler of vector `i` schedules.  Those of `error_intr_handler` and
`user_intr_handler` schedule none. -/
def intrHandler (x : QdmaDev) (c : IrqConf) (i : ℕ) : List ℕ :=
  match intrVecMap c.funcId i with
  | .data => dataIntrDirect x i
  | .error | .user => []

/-- `irq_bottom`. -/
def irqBottom (x : QdmaDev) (c : IrqConf) (irq : ℕ) : List ℕ :=
  if c.topDev then []
  else
    match (List.range x.numVecs).find? (fun i => c.vector i = irq) with
    | some i => intrHandler x c i
    | none => []

/-- `irq_top`. -/
def irqTop (x : QdmaDev) (c : IrqConf) (irq : ℕ) : List ℕ :=
  if c.topDev then irqBottom x c irq else []

/-- An interrupt: `irq_top`, and then its thread runs `irq_bottom`. -/
def interrupt (x : QdmaDev) (c : IrqConf) (irq : ℕ) : List ℕ := irqTop x c irq ++ irqBottom x c irq

/-- Vectors have the numbers of one interrupt each. -/
def IrqConf.Distinct (c : IrqConf) (n : ℕ) : Prop :=
  ∀ i < n, ∀ j < n, c.vector i = c.vector j → i = j

/-! ## Looking a vector up -/

/-- The data vectors are those from `dvec_start_idx` on. -/
theorem intrVecMap_data (funcId i : ℕ) : intrVecMap funcId i = .data ↔ dvecStart funcId ≤ i := by
  unfold intrVecMap dvecStart
  split_ifs <;> simp <;> omega

/-- The loop of `irq_bottom` stops at the vector of the interrupt. -/
theorem find_vector {c : IrqConf} {n i : ℕ} (hc : c.Distinct n) (hi : i < n) :
    (List.range n).find? (fun j => c.vector j = c.vector i) = some i := by
  rw [List.find?_range_eq_some]
  refine ⟨decide_eq_true rfl, List.mem_range.mpr hi, fun j hj => ?_⟩
  rw [Bool.not_eq_true', decide_eq_false_iff_not]
  exact fun heq => Nat.ne_of_lt hj (hc j (hj.trans hi) i hi heq)

/-- An interrupt nobody gave the function is none of its business. -/
theorem find_no_vector {c : IrqConf} {n irq : ℕ} (h : ∀ i < n, c.vector i ≠ irq) :
    (List.range n).find? (fun j => c.vector j = irq) = none := by
  rw [List.find?_eq_none]
  intro j hj heq
  exact h j (List.mem_range.mp hj) (of_decide_eq_true heq)

/-- What is scheduled on the interrupt of vector `i`. -/
theorem interrupt_vector {x : QdmaDev} {c : IrqConf} (hc : c.Distinct x.numVecs) {i : ℕ}
    (hi : i < x.numVecs) :
    interrupt x c (c.vector i)
      = if c.topDev = false ∧ dvecStart c.funcId ≤ i then x.intrList i else [] := by
  unfold interrupt irqTop irqBottom
  rw [find_vector hc hi]
  cases htop : c.topDev with
  | true => simp
  | false =>
      simp only [Bool.false_eq_true, if_false, List.nil_append, true_and]
      unfold intrHandler
      have hdata := intrVecMap_data c.funcId i
      by_cases hle : dvecStart c.funcId ≤ i
      · rw [if_pos hle, hdata.mpr hle]
        rfl
      · rw [if_neg hle]
        cases hmap : intrVecMap c.funcId i with
        | data => exact absurd (hdata.mp hmap) hle
        | error => rfl
        | user => rfl

/-! ## The vectors of started queues -/

/-- What `intr_setup` and `intr_ring_setup` leave behind, without aggregation. -/
structure DirectDev (x : QdmaDev) (funcId : ℕ) : Prop where
  numVecs : 0 < x.numVecs
  few : x.numVecs ≤ 8
  noAgg : x.intrCoalEn = false
  dvec : x.dvecStartIdx = dvecStart funcId

/-- A queue that is started has a data vector. -/
def QdmaDev.DataVecs (x : QdmaDev) : Prop :=
  ∀ id < 2 * x.qmax, (x.descq id).online = true →
    x.dvecStartIdx ≤ (x.descq id).intrId ∧ (x.descq id).intrId < x.numVecs

/-- No queue has come online or changed its vector. -/
structure NoneUp (x x' : QdmaDev) : Prop where
  qmax : x'.qmax = x.qmax
  online : ∀ id, (x'.descq id).online = true →
    (x.descq id).online = true ∧ (x'.descq id).intrId = (x.descq id).intrId

theorem NoneUp.refl (x : QdmaDev) : NoneUp x x := ⟨rfl, fun _ h => ⟨h, rfl⟩⟩

theorem NoneUp.trans {x y z : QdmaDev} (h : NoneUp x y) (h' : NoneUp y z) : NoneUp x z := by
  refine ⟨h'.qmax.trans h.qmax, fun id hup => ?_⟩
  obtain ⟨hup', hvec'⟩ := h'.online id hup
  obtain ⟨hup'', hvec⟩ := h.online id hup'
  exact ⟨hup'', hvec'.trans hvec⟩

theorem SameVecs.noneUp {x x' : QdmaDev} (h : SameVecs x x') : NoneUp x x' := by
  refine ⟨h.qmax, fun id hup => ?_⟩
  have htags := h.tags id
  exact ⟨(congrArg Prod.fst htags).symm.trans hup, congrArg Prod.snd htags⟩

/-- It is enough to look at the queue that is changed. -/
theorem VecsBut.noneUp {x x' : QdmaDev} {id : ℕ} (h : VecsBut id x x')
    (hup : (x'.descq id).online = true →
      (x.descq id).online = true ∧ (x'.descq id).intrId = (x.descq id).intrId) : NoneUp x x' := by
  refine ⟨h.qmax, fun id' hup' => ?_⟩
  by_cases hid : id' = id
  · rw [hid] at hup' ⊢
    exact hup hup'
  · rw [h.other id' hid] at hup' ⊢
    exact ⟨hup', rfl⟩

theorem queueStop_noneUp (x : QdmaDev) (id : ℕ) (ctxCleared : Bool) :
    NoneUp x (x.queueStop id ctxCleared) := by
  by_cases hhas : x.Has id
  swap
  · rw [show x.queueStop id ctxCleared = x from if_neg hhas]
    exact .refl x
  obtain ⟨hbut, htags, -, -⟩ := queueStop_vecs hhas ctxCleared
  refine hbut.noneUp (fun hup => ?_)
  rw [show ((x.queueStop id ctxCleared).descq id).online = false from congrArg (·.2.1) htags] at hup
  cases hup

theorem descqCleanup_noneUp {x : QdmaDev} (hn : 0 < x.numVecs) (id : ℕ) (ctxCleared : Bool) :
    NoneUp x (x.descqCleanup id ctxCleared) := by
  obtain ⟨hbut, -, hvec, hoff, -, -⟩ := descqCleanup_vecs hn id ctxCleared
  refine hbut.noneUp (fun hup => ⟨?_, hvec⟩)
  by_contra hno
  rw [hoff (Bool.eq_false_iff.mpr hno)] at hup
  cases hup

theorem queueRemove_noneUp {x : QdmaDev} (hn : 0 < x.numVecs) (id : ℕ) (ctxCleared : Bool) :
    NoneUp x (x.queueRemove id ctxCleared) := by
  by_cases hhas : x.Has id
  swap
  · rw [show x.queueRemove id ctxCleared = x from if_neg hhas]
    exact .refl x
  unfold QdmaDev.queueRemove
  rw [if_pos hhas]
  simp only
  have hoff : NoneUp x (x.setDescq id { x.descq id with inited := false, online := false }) := by
    refine (setDescq_vecsBut x id _).noneUp (fun hup => ?_)
    rw [setDescq_self] at hup
    cases hup
  have hclean := descqCleanup_noneUp (x := x.setDescq id
    { x.descq id with inited := false, online := false }) hn id ctxCleared
  refine (hoff.trans hclean).trans (NoneUp.trans ?_ (uncount_keepsVectors _ _).same.noneUp)
  refine (setDescq_vecsBut _ id _).noneUp (fun hup => ?_)
  rw [setDescq_self] at hup ⊢
  exact ⟨hup, rfl⟩

theorem foldl_noneUp {f : QdmaDev → ℕ → QdmaDev} {n : ℕ}
    (hf : ∀ x id, x.numVecs = n → NoneUp x (f x id) ∧ (f x id).numVecs = n) (ids : List ℕ)
    {x : QdmaDev} (hn : x.numVecs = n) :
    NoneUp x (ids.foldl f x) ∧ (ids.foldl f x).numVecs = n := by
  induction ids generalizing x with
  | nil => exact ⟨.refl x, hn⟩
  | cons id ids ih =>
      obtain ⟨h1, hn1⟩ := hf x id hn
      obtain ⟨h2, hn2⟩ := ih hn1
      exact ⟨h1.trans h2, hn2⟩

theorem deviceCleanup_noneUp {x : QdmaDev} (hn : 0 < x.numVecs) (ctxCleared : ℕ → Bool) :
    NoneUp x (x.deviceCleanup ctxCleared) := by
  unfold QdmaDev.deviceCleanup
  split_ifs
  · exact .refl x
  simp only
  obtain ⟨hstop, hnum⟩ := foldl_noneUp (n := x.numVecs)
    (f := fun x id => x.queueStop id (ctxCleared id)) (fun y id hy =>
      ⟨queueStop_noneUp y id _, (congrArg (·.2.2.2.1) (queueStop_fixed y id _)).trans hy⟩)
    (List.range (2 * x.qmax)) rfl
  obtain ⟨hclean, -⟩ := foldl_noneUp (n := x.numVecs)
    (f := fun x id => x.descqCleanup id (ctxCleared id)) (fun y id hy => by
      have hpos : 0 < y.numVecs := hy ▸ hn
      exact ⟨descqCleanup_noneUp hpos id _, (descqCleanup_vecs hpos id _).1.numVecs.trans hy⟩)
    (List.range (2 * x.qmax)) hnum
  refine (hstop.trans hclean).trans ⟨rfl, fun id hup => ⟨hup, rfl⟩⟩

/-- Counting a queue changes no queue. -/
theorem countVec_vecsBut (x : QdmaDev) (id : ℕ) : VecsBut id x x.countVec := by
  unfold QdmaDev.countVec
  cases x.pickVec with
  | none => exact .refl id x
  | some v =>
      simp only
      split_ifs
      · exact .refl id x
      · exact ⟨rfl, rfl, rfl, rfl, fun _ _ => rfl⟩

/-- A start whose context cannot be programmed brings up no queue. -/
theorem queueStart_noProg {x : QdmaDev} {id : ℕ} {env : StartEnv} {valid : Bool}
    (hp : x.StartPicks id env) (hctx : env.ctx = .fail valid) :
    NoneUp x (x.queueStart id env).1 := by
  obtain ⟨hhas, hcfg, hchk, halloc⟩ := hp
  have hoff : (startCheck (startConfig (x.descq id) env.csr).1).1.online = false := by
    by_contra hup
    rw [Bool.not_eq_false] at hup
    refine hchk ?_
    have hup' : (startConfig (x.descq id) env.csr).1.online = true := by
      rw [← hup]
      exact (congrArg (·.2.1) (startCheck_tags (startConfig (x.descq id) env.csr).1)).symm
    unfold startCheck
    rw [if_pos (by rw [hup', Bool.or_true])]
    exact show qdmaErrInvalidDescqState < 0 by decide
  unfold QdmaDev.queueStart
  rw [if_pos hhas]
  simp only
  rw [if_neg hcfg, if_neg hchk, if_neg halloc]
  set d1 := (startCheck (startConfig (x.descq id) env.csr).1).1 with hd1
  have hrv := (allocResource_rv d1 env.alloc x.pickVec).resolve_right halloc
  set d2 := (qdmaDescqAllocResource d1 env.alloc x.pickVec).1 with hd2
  rw [hrv]
  have hdescq : ((x.setDescq id d2).countVec).descq id = d2 := by
    unfold QdmaDev.countVec
    cases (x.setDescq id d2).pickVec with
    | none => exact setDescq_self x id d2
    | some v =>
        simp only
        split_ifs <;> exact setDescq_self x id d2
  have hfail : (startProgHw d2 0 env).2 < 0 := by
    unfold startProgHw
    rw [if_neg (lt_irrefl (0 : ℤ)), hctx]
    exact show eio < 0 by decide
  have htags := startProgHw_tags d2 0 env
  rw [if_pos hfail] at htags
  have hon : d2.online = false := by
    rw [← hoff]
    exact congrArg (·.2.1) (allocResource_tags d1 env.alloc x.pickVec)
  unfold QdmaDev.startFinish
  rw [hdescq]
  simp only
  rw [if_pos hfail]
  have hbut := ((setDescq_vecsBut x id d2).trans (countVec_vecsBut (x.setDescq id d2) id)).trans
    (setDescq_vecsBut _ id (startProgHw d2 0 env).1)
  refine hbut.noneUp (fun hup => ?_)
  rw [setDescq_self, show (startProgHw d2 0 env).1.online = d2.online from congrArg (·.2.1) htags,
    hon] at hup
  cases hup

/-- **A start** brings up no queue but its own, with the vector it picks. -/
theorem queueStart_noneUp_or {x : QdmaDev} {id : ℕ} (env : StartEnv) (hagg : x.intrCoalEn = false)
    {v : ℕ} (hpick : x.pickVec = some v) (hv : v < x.numVecs) :
    NoneUp x (x.queueStart id env).1 ∨ ComesUp x (x.queueStart id env).1 id v := by
  by_cases hp : x.StartPicks id env
  swap
  · exact .inl (queueStart_idle hp).noneUp
  cases hctx : env.ctx with
  | ok => exact .inr (queueStart_up hp hctx hagg hpick hv)
  | fail valid => exact .inl (queueStart_noProg hp hctx)

theorem NoneUp.dataVecs {x x' : QdmaDev} (h : NoneUp x x') (hd : x'.dvecStartIdx = x.dvecStartIdx)
    (hn : x'.numVecs = x.numVecs) (hx : x.DataVecs) : x'.DataVecs := by
  intro id hlt hup
  obtain ⟨hup', hvec⟩ := h.online id hup
  rw [hd, hn, hvec]
  exact hx id (h.qmax ▸ hlt) hup'

theorem ComesUp.dataVecs {x x' : QdmaDev} {id v : ℕ} (h : ComesUp x x' id v) (hmin : x.MinVec v)
    (hx : x.DataVecs) : x'.DataVecs := by
  intro id' hlt hup
  rw [h.but.dvec, h.but.numVecs]
  by_cases hid : id' = id
  · rw [hid, show (x'.descq id).intrId = v from congrArg (·.2.2) h.tags]
    exact ⟨hmin.ge, hmin.lt⟩
  · rw [h.but.other id' hid] at hup ⊢
    exact hx id' (h.but.qmax ▸ hlt) hup

/-- Vectors are set up once. -/
theorem step_fixed (x : QdmaDev) (op : DevOp) : (x.step op).fixed.2.2 = x.fixed.2.2 := by
  cases op with
  | add c => exact congrArg (·.2.2) (queueAdd_fixed x c)
  | reconfig id qconf => exact congrArg (·.2.2) (queueReconfig_fixed x id qconf)
  | start id env => exact congrArg (·.2.2) (queueStart_fixed x id env)
  | stop id ctxCleared => exact congrArg (·.2.2) (queueStop_fixed x id ctxCleared)
  | remove id ctxCleared => exact congrArg (·.2.2) (queueRemove_fixed x id ctxCleared)
  | cleanup ctxCleared => exact congrArg (·.2.2) (deviceCleanup_fixed x ctxCleared)
  | others wrk wb => rfl

theorem DirectDev.step {x : QdmaDev} {funcId : ℕ} (h : DirectDev x funcId) (op : DevOp) :
    DirectDev (x.step op) funcId := by
  have hfix := step_fixed x op
  have hn : (x.step op).numVecs = x.numVecs := congrArg (·.2.1) hfix
  have hd : (x.step op).dvecStartIdx = x.dvecStartIdx := congrArg (·.2.2.1) hfix
  have hc : (x.step op).intrCoalEn = x.intrCoalEn := congrArg (·.2.2.2) hfix
  exact ⟨hn ▸ h.numVecs, hn ▸ h.few, hc.trans h.noAgg, hd.trans h.dvec⟩

/-- **Every call** leaves started queues with data vectors. -/
theorem QdmaDev.DataVecs.step {x : QdmaDev} (hx : x.DataVecs) {funcId : ℕ} (h : DirectDev x funcId)
    {op : DevOp} (hok : LifeLegal x op) : (x.step op).DataVecs := by
  have hfix := step_fixed x op
  have hkeep : NoneUp x (x.step op) → (x.step op).DataVecs := fun hnone =>
    hnone.dataVecs (congrArg (·.2.2.1) hfix) (congrArg (·.2.1) hfix) hx
  cases op with
  | add c => exact hkeep (queueAdd_keepsVectors x c).same.noneUp
  | reconfig id qconf => exact hkeep (queueReconfig_keepsVectors x id qconf).same.noneUp
  | start id env =>
      by_cases hhas : x.Has id
      · have hvec : x.dvecStartIdx < x.numVecs := (hok hhas).2.2 h.numVecs.ne'
        obtain ⟨v, hpick, hmin⟩ := pickVec_min h.numVecs h.noAgg hvec
        rcases queueStart_noneUp_or env h.noAgg hpick hmin.lt with hnone | hup
        · exact hkeep hnone
        · exact hup.dataVecs hmin hx
      · have hsame : x.step (.start id env) = x :=
          congrArg Prod.fst (if_neg hhas : x.queueStart id env = _)
        rw [hsame]
        exact hx
  | stop id ctxCleared => exact hkeep (queueStop_noneUp x id ctxCleared)
  | remove id ctxCleared => exact hkeep (queueRemove_noneUp h.numVecs id ctxCleared)
  | cleanup ctxCleared => exact hkeep (deviceCleanup_noneUp h.numVecs ctxCleared)
  | others wrk wb => exact hx

/-! ## Which queues are reached -/

/-- **What every run of queue calls maintains**, without aggregation. -/
structure DirectInv (x : QdmaDev) (funcId : ℕ) : Prop where
  direct : DirectDev x funcId
  dev : DevInv x
  vecs : x.DataVecs

theorem DirectInv.step {x : QdmaDev} {funcId : ℕ} (h : DirectInv x funcId) {op : DevOp}
    (hok : LifeLegal x op) : DirectInv (x.step op) funcId :=
  ⟨h.direct.step op, h.dev.step hok, h.vecs.step h.direct hok⟩

/-- A device that is set up. -/
theorem FreshDev.directInv {x : QdmaDev} {funcId : ℕ} (hf : FreshDev x) (h : DirectDev x funcId) :
    DirectInv x funcId := by
  refine ⟨h, ⟨hf.threads, fun id hlt => .inl ⟨hf.idle id hlt, hf.unlinked id hlt⟩, hf.badUnlink⟩,
    fun id hlt hup => ?_⟩
  rw [(hf.idle id hlt).online] at hup
  cases hup

theorem DirectInv.run {x₀ x : QdmaDev} {funcId : ℕ} {ops : List DevOp} (hf : FreshDev x₀)
    (h : DirectDev x₀ funcId) (hr : Run QdmaDev.step LifeLegal x₀ ops x) : DirectInv x funcId :=
  hr.invariant (I := fun x => DirectInv x funcId) (hf.directInv h) (fun _ _ hx hok => hx.step hok)

/-- A queue is on the list of its vector if it is started, and else on none. -/
theorem DirectInv.intrList {x : QdmaDev} {funcId : ℕ} (h : DirectInv x funcId) {id : ℕ}
    (hlt : id < 2 * x.qmax) (i : ℕ) :
    (x.intrList i).count id
      = if (x.descq id).online = true ∧ (x.descq id).intrId = i then 1 else 0 := by
  rcases h.dev.queue id hlt with ⟨hidle, hoff⟩ | ⟨hup, hlink⟩
  · rw [hoff.intr i, if_neg]
    rw [hidle.online]
    rintro ⟨hno, -⟩
    cases hno
  · have hon := (hlink.vector h.direct.numVecs.ne').1 i
    rw [hon, hup.online]
    by_cases hi : i = (x.descq id).intrId
    · rw [if_pos hi, if_pos ⟨rfl, hi.symm⟩]
    · rw [if_neg hi, if_neg (fun hc => hi hc.2.symm)]

/-- **Which queues an interrupt reaches.**  After any queue calls, the interrupt of a vector
schedules the work of the queues started on it, once each, and of no others; the contexts of these
queues name the vector, and every queue that is started has one.  With `fp_q_isr_top_dev` set no
interrupt reaches any queue. -/
theorem interrupt_reaches {x₀ x : QdmaDev} {c : IrqConf} {ops : List DevOp} (hf : FreshDev x₀)
    (h : DirectDev x₀ c.funcId) (hr : Run QdmaDev.step LifeLegal x₀ ops x)
    (hc : c.Distinct x.numVecs) :
    (∀ i < x.numVecs, ∀ id < 2 * x.qmax, (interrupt x c (c.vector i)).count id
      = if c.topDev = false ∧ (x.descq id).online = true ∧ (x.descq id).intrId = i then 1 else 0) ∧
    (∀ irq, (∀ i < x.numVecs, c.vector i ≠ irq) → interrupt x c irq = []) ∧
    ∀ id < 2 * x.qmax, (x.descq id).online = true →
      (x.descq id).intrId < x.numVecs ∧
      ∀ (e : VecEnv) (w : ℕ), e.intrCoalEn = false → e.funcId < 2 ^ 8 →
        (coalField (x.descq id).conf.c2h).get w = 0 →
        vecPart (x.descq id).conf.c2h (qid2vecWord w (x.descq id) e)
          = ((x.descq id).intrId, 0) := by
  have hinv := DirectInv.run hf h hr
  refine ⟨fun i hi id hlt => ?_, fun irq hno => ?_, fun id hlt hup => ?_⟩
  · rw [interrupt_vector hc hi]
    have hlist := hinv.intrList hlt i
    by_cases hdata : c.topDev = false ∧ dvecStart c.funcId ≤ i
    · rw [if_pos hdata, hlist]
      by_cases hon : (x.descq id).online = true ∧ (x.descq id).intrId = i
      · rw [if_pos hon, if_pos ⟨hdata.1, hon⟩]
      · rw [if_neg hon, if_neg (fun hall => hon hall.2)]
    · rw [if_neg hdata, if_neg]
      · rfl
      · rintro ⟨htop, hon, hid⟩
        have hge := (hinv.vecs id hlt hon).1
        rw [hid, hinv.direct.dvec] at hge
        exact hdata ⟨htop, hge⟩
  · unfold interrupt irqTop irqBottom
    rw [find_no_vector hno]
    simp
  · have hvec := (hinv.vecs id hlt hup).2
    refine ⟨hvec, fun e w hagg hfunc hbit => ?_⟩
    have hvalid : VecValid (x.descq id) e :=
      ⟨hfunc, Nat.lt_of_lt_of_le hvec hinv.direct.few, fun hco => by
        rw [hagg] at hco
        cases hco⟩
    rw [qid2vecWord_own hvalid (.inr hbit)]
    unfold askedVec
    rw [hagg]
    rfl

/-- Function 1, its vectors having the interrupts from 40 on. -/
def fromForty : IrqConf := { funcId := 1, vector := fun i => 40 + i }

/-- An H2C queue is added and started on it. -/
def oneStarted : QdmaDev :=
  ([.add { qconf := some {} }, .start 0 workingStart] : List DevOp).foldl QdmaDev.step (pairDev 8)

theorem oneStarted_run : Run QdmaDev.step LifeLegal (pairDev 8)
    [.add { qconf := some {} }, .start 0 workingStart] oneStarted := by
  refine (Run.nil.snoc (by trivial)).snoc (fun _ => ⟨fun hno => ?_, fun hno => ?_, fun _ => ?_⟩)
  · exact absurd hno (Option.some_ne_none _)
  · exact absurd hno (by simp [workingStart])
  · decide +kernel

theorem pairDev_direct : DirectDev (pairDev 8) 1 := ⟨by decide, by decide, rfl, rfl⟩

theorem interrupt_reaches_one : (interrupt oneStarted fromForty 41).count 0 = 1 := by
  have hreach := interrupt_reaches (c := fromForty) (pairDev_fresh 8) pairDev_direct oneStarted_run
    (fun i _ j _ heq => Nat.add_left_cancel heq)
  refine (hreach.1 1 (by decide +kernel) 0 (by decide +kernel)).trans (if_pos ?_)
  exact ⟨rfl, by decide +kernel, by decide +kernel⟩

end Qdma
