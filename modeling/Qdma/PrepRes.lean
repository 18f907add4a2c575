/-
# Preparing the resources of a device

`qdma_device_prep_q_resource` runs when a queue is added: the range of queues (FMAP), the
aggregation rings, their contexts and the error interrupts.  Any of the steps can fail, and the
function is called again with the next queue.

`init_qrange` is set by the first step and ends every later call, and `intr_coal_en` is set before
the rings are allocated.  `prep_runs_iff` says in which sequences of calls nothing goes wrong with
that.
-/
import Qdma.IntrSafe
import Qdma.Mbox

namespace Qdma

open Exec

/-! ## The calls -/

/-- What the three commands that program the context of a ring return: clear it, write it with
read-back, read it. -/
structure CtxtAnswer where
  clr : ℤ := 0
  wr : ℤ := 0
  rd : ℤ := 0

/-- What a VF gets for `MBOX_OP_INTR_CTXT`.  A PF refuses it. -/
structure IntrCtxtReply where
  rv : ℤ
  refused : rv ≠ 0

/-- How the steps of a call go: the request for a range (VF only), the allocations of
`intr_ring_setup`, the commands for each ring (PF only), the reply of the PF (VF only). -/
structure PrepCall where
  fmapRv : ℤ := 0
  fmapQbase : ℕ := 0
  allocOk : ℕ → Bool := fun _ => true
  ctxt : ℕ → CtxtAnswer := fun _ => {}
  reply : IntrCtxtReply := ⟨einval, by decide⟩

/-- The status of a PF's answer to `MBOX_OP_INTR_CTXT` is an error, whatever came before. -/
theorem intrCtxt_refused (d : PfDev) {m : MboxMsg} (hop : m.op = .intrCtxt) (status : ℤ) :
    statusOf (pfProcOp d m).2.2.1 ((pfProcOp d m).2.2.2.getD status) ≠ 0 := by
  have hrv : (pfProcOp d m).2.2.1 = einval := by
    unfold pfProcOp
    rw [hop]
  have hset : (pfProcOp d m).2.2.2 = none := by
    unfold pfProcOp
    rw [hop]
  rw [hrv, hset, Option.getD_none]
  unfold statusOf
  split_ifs with h
  · decide
  · exact fun h0 => h ⟨by decide, h0⟩

/-! ## The device -/

/-- A device with the parts that are prepared: `intr_coal_list`, the range in the FMAP register of
the function, which rings have their context programmed, and the error interrupts. -/
structure PrepDev where
  lib : IdDev
  funcId : ℕ
  masterPf : Bool
  coal : CoalList := .null
  fmap : Option Fmap := none
  ringCtxt : ℕ → Bool := fun _ => false
  errIntr : Bool := false

/-- `device_set_qrange`.  The range of a VF is programmed by its PF. -/
def PrepDev.deviceSetQrange (s : PrepDev) (c : PrepCall) : PrepDev × ℤ :=
  let (lib, rv) := s.lib.deviceSetQrange { fmapRv := c.fmapRv, fmapQbase := c.fmapQbase }
  if rv < 0 then ({ s with lib := lib }, rv)
  else
    let qbase := if s.lib.dev.vf then c.fmapQbase else s.lib.conf.qbase
    ({ s with lib := lib, fmap := some ⟨s.funcId, qbase, s.lib.dev.qmax⟩ }, rv)

/-- `intr_ring_setup`.  When it fails, `intr_coal_en` is set and `intr_coal_list` is as before. -/
def PrepDev.intrRingSetup (s : PrepDev) (c : PrepCall) : PrepDev × ℤ :=
  match Qdma.intrRingSetup s.lib.conf c.allocOk with
  | .error rv => ({ s with lib := { s.lib with dev := { s.lib.dev with intrCoalEn := true } } }, rv)
  | .ok (coal, l) =>
      ({ s with
          lib := { s.lib with dev := { s.lib.dev with intrCoalEn := coal } }
          coal := if coal then .live l else .null }, 0)

/-- `get_intr_ring_index` for the `i`-th data vector. -/
def PrepDev.ringIndex (s : PrepDev) (i : ℕ) : ℕ := i + s.funcId * qdmaDataVecPerPfMax

/-- The loop of `qdma_intr_context_setup` of a PF over the rings `is`.  A context that is cleared,
or may have been, is not programmed. -/
def PrepDev.intrContextLoop (c : PrepCall) : List ℕ → PrepDev → PrepDev × ℤ
  | [], s => (s, 0)
  | i :: is, s =>
      let s := { s with ringCtxt := Function.update s.ringCtxt (s.ringIndex i) false }
      if (c.ctxt i).clr < 0 then (s, (c.ctxt i).clr)
      else if (c.ctxt i).wr < 0 then (s, (c.ctxt i).wr)
      else
        let s := { s with ringCtxt := Function.update s.ringCtxt (s.ringIndex i) true }
        if (c.ctxt i).rd < 0 then (s, (c.ctxt i).rd) else PrepDev.intrContextLoop c is s

/-- `qdma_intr_context_setup`. -/
def PrepDev.intrContextSetup (s : PrepDev) (c : PrepCall) : PrepDev × ℤ :=
  if !s.lib.dev.intrCoalEn then (s, 0)
  else if s.lib.dev.vf then (s, c.reply.rv)
  else PrepDev.intrContextLoop c (List.range qdmaDataVecPerPfMax) s

/-- `qdma_err_intr_setup` and the test before it. -/
def PrepDev.errIntrSetup (s : PrepDev) : PrepDev :=
  if !s.lib.conf.pollMode && s.masterPf then { s with errIntr := true } else s

/-- **`qdma_device_prep_q_resource`.** -/
def PrepDev.prepQResource (s : PrepDev) (c : PrepCall) : PrepDev × ℤ :=
  if s.lib.initQrange then (s, 0)
  else
    let (s, rv) := s.deviceSetQrange c
    if rv < 0 then (s, rv)
    else
      let (s, rv) := s.intrRingSetup c
      if rv ≠ 0 then (s, rv)
      else
        let (s, rv) := s.intrContextSetup c
        if rv ≠ 0 then (s, rv) else (s.errIntrSetup, rv)

/-- The device after a call. -/
def PrepDev.step (s : PrepDev) (c : PrepCall) : PrepDev := (s.prepQResource c).1

/-! ## What a call owes -/

/-- Aggregation is in use: asked for, and there are fewer vectors than queues. -/
def PrepDev.Aggregates (s : PrepDev) : Prop :=
  s.lib.conf.pollMode = false ∧ s.lib.conf.intrAgg = true ∧ s.lib.conf.numVecs ≠ 0 ∧
    s.lib.conf.numVecs < s.lib.conf.qsetsMax

/-- The device is the one that handles the error interrupts. -/
def PrepDev.ErrMaster (s : PrepDev) : Prop := s.lib.conf.pollMode = false ∧ s.masterPf = true

/-- All rings are allocated. -/
def PrepDev.HasRings (s : PrepDev) : Prop :=
  ∃ l, s.coal = .live l ∧ l.length = qdmaDataVecPerPfMax

/-- The contexts of all rings are programmed. -/
def PrepDev.HasCtxts (s : PrepDev) : Prop :=
  ∀ i < qdmaDataVecPerPfMax, s.ringCtxt (s.ringIndex i) = true

/-- **Everything is prepared.** -/
structure PrepDev.Complete (s : PrepDev) : Prop where
  fmap : s.fmap.isSome = true
  rings : s.Aggregates → s.HasRings
  ctxts : s.Aggregates → s.HasCtxts
  err : s.ErrMaster → s.errIntr = true

/-- **No flag and no pointer claims what is missing.**  `init_qrange`, which ends every later call
with success, claims that all is prepared, `intr_coal_en` that the rings can be used, and
`intr_coal_list` that they are there. -/
structure PrepDev.Truthful (s : PrepDev) : Prop where
  range : s.lib.initQrange = true → s.Complete
  coalEn : s.lib.dev.intrCoalEn = true → s.HasRings ∧ s.HasCtxts
  list : s.coal = .null ∨ s.HasRings

/-- **An outcome is right**: success means that all is prepared, and a failure leaves flags and
pointers that are true. -/
def PrepDev.Right (r : PrepDev × ℤ) : Prop :=
  (r.2 = 0 → r.1.Complete) ∧ (r.2 ≠ 0 → r.1.Truthful)

/-- So is a call with this outcome. -/
def PrepDev.CallOk (s : PrepDev) (c : PrepCall) : Prop := PrepDev.Right (s.prepQResource c)

/-- The steps for the rings go well: the rings are allocated, and the device is a PF whose contexts
are written, and also read where error interrupts are still to be set up. -/
def PrepDev.Programs (s : PrepDev) (c : PrepCall) : Prop :=
  (∀ i ≤ qdmaDataVecPerPfMax, c.allocOk i = true) ∧ s.lib.dev.vf = false ∧
    (∀ i < qdmaDataVecPerPfMax, 0 ≤ (c.ctxt i).clr ∧ 0 ≤ (c.ctxt i).wr) ∧
    (s.ErrMaster → s.errIntr = false → ∀ i < qdmaDataVecPerPfMax, 0 ≤ (c.ctxt i).rd)

/-- **When it is.**  If the request for a range fails, the flags are not left over from an earlier
life of the device; once there is a range and aggregation is in use, the steps for the rings go
well. -/
def PrepDev.Prepares (s : PrepDev) (c : PrepCall) : Prop :=
  s.lib.initQrange = false →
    if s.lib.dev.vf = true ∧ c.fmapRv < 0 then s.Truthful
    else s.Aggregates → s.Programs c

/-- A device whose resources are not prepared: `qdma_device_init` has just run. -/
structure PrepDev.Unprepared (s : PrepDev) : Prop where
  range : s.lib.initQrange = false
  list : ∀ l, s.coal ≠ .live l
  vf : s.lib.dev.vf = true → ∀ i, s.ringCtxt i = false

/-! ## The range -/

/-- What a call has changed once there is a range: nothing that a call reads but the base. -/
structure Ranged (s s' : PrepDev) : Prop where
  range : s'.lib.initQrange = true
  dev : s'.lib.dev = s.lib.dev
  conf : s'.lib.conf = { s.lib.conf with qbase := s'.lib.conf.qbase }
  fmap : s'.fmap.isSome = true
  funcId : s'.funcId = s.funcId
  masterPf : s'.masterPf = s.masterPf
  coal : s'.coal = s.coal
  ringCtxt : s'.ringCtxt = s.ringCtxt
  errIntr : s'.errIntr = s.errIntr

theorem Ranged.aggregates {s s' : PrepDev} (h : Ranged s s') : s'.Aggregates ↔ s.Aggregates := by
  unfold PrepDev.Aggregates
  rw [h.conf]

theorem Ranged.errMaster {s s' : PrepDev} (h : Ranged s s') : s'.ErrMaster ↔ s.ErrMaster := by
  unfold PrepDev.ErrMaster
  rw [h.conf, h.masterPf]

theorem Ranged.programs {s s' : PrepDev} (h : Ranged s s') (c : PrepCall) :
    s'.Programs c ↔ s.Programs c := by
  unfold PrepDev.Programs
  rw [h.dev, h.errMaster, h.errIntr]

/-- A request for a range that fails changes nothing. -/
theorem setQrange_failed {s : PrepDev} {c : PrepCall} (hvf : s.lib.dev.vf = true)
    (hrv : c.fmapRv < 0) : s.deviceSetQrange c = (s, c.fmapRv) := by
  have hlib : s.lib.deviceSetQrange { fmapRv := c.fmapRv, fmapQbase := c.fmapQbase }
      = (s.lib, c.fmapRv) := by
    unfold IdDev.deviceSetQrange
    rw [if_pos hvf, if_pos hrv]
  unfold PrepDev.deviceSetQrange
  simp only [hlib]
  rw [if_pos hrv]

/-- Otherwise there is a range. -/
theorem setQrange_ok {s : PrepDev} {c : PrepCall} (h : ¬ (s.lib.dev.vf = true ∧ c.fmapRv < 0)) :
    Ranged s (s.deviceSetQrange c).1 ∧ (s.deviceSetQrange c).2 = 0 := by
  unfold PrepDev.deviceSetQrange IdDev.deviceSetQrange
  by_cases hvf : s.lib.dev.vf = true
  · have hrv : ¬ c.fmapRv < 0 := fun hrv => h ⟨hvf, hrv⟩
    simp only [hvf, hrv, if_true, if_false, lt_irrefl]
    exact ⟨⟨rfl, rfl, rfl, rfl, rfl, rfl, rfl, rfl, rfl⟩, trivial⟩
  · simp only [hvf, Bool.false_eq_true, if_false, lt_irrefl]
    exact ⟨⟨rfl, rfl, rfl, rfl, rfl, rfl, rfl, rfl, rfl⟩, trivial⟩

/-! ## The rings and their contexts -/

/-- The rest of a call, once there is a range. -/
def PrepDev.prepRest (s : PrepDev) (c : PrepCall) : PrepDev × ℤ :=
  if (s.intrRingSetup c).2 ≠ 0 then s.intrRingSetup c
  else if ((s.intrRingSetup c).1.intrContextSetup c).2 ≠ 0 then
    (s.intrRingSetup c).1.intrContextSetup c
  else (((s.intrRingSetup c).1.intrContextSetup c).1.errIntrSetup,
    ((s.intrRingSetup c).1.intrContextSetup c).2)

theorem prepQResource_rest {s : PrepDev} {c : PrepCall} (h0 : s.lib.initQrange = false)
    (h : ¬ (s.lib.dev.vf = true ∧ c.fmapRv < 0)) :
    s.prepQResource c = (s.deviceSetQrange c).1.prepRest c := by
  obtain ⟨-, hrv⟩ := setQrange_ok h
  unfold PrepDev.prepQResource PrepDev.prepRest
  simp only [h0, hrv, Bool.false_eq_true, if_false, lt_irrefl]

section Rest

variable {s : PrepDev} {c : PrepCall}

/-- Aggregation is not in use. -/
theorem ringSetup_plain (h : ¬ s.Aggregates) : s.intrRingSetup c = ({ s with
    lib := { s.lib with dev := { s.lib.dev with intrCoalEn := false } }, coal := .null }, 0) := by
  have hset : Qdma.intrRingSetup s.lib.conf c.allocOk = .ok (false, []) := by
    unfold Qdma.intrRingSetup
    by_cases h1 : (s.lib.conf.pollMode || !s.lib.conf.intrAgg) = true
    · rw [if_pos h1]
    · rw [if_neg h1, if_neg]
      rintro ⟨h2, h3⟩
      simp only [Bool.or_eq_true, Bool.not_eq_true', not_or, Bool.not_eq_true,
        Bool.not_eq_false] at h1
      exact h ⟨h1.1, h1.2, h2, h3⟩
  unfold PrepDev.intrRingSetup
  rw [hset]
  rfl

/-- It is, and `intr_ring_setup` goes on to the allocations. -/
theorem ringSetup_aggregates (h : s.Aggregates) : Qdma.intrRingSetup s.lib.conf c.allocOk
    = if (List.range (qdmaDataVecPerPfMax + 1)).all c.allocOk then
        .ok (true, (List.range qdmaDataVecPerPfMax).map s.lib.conf.coalEntry)
      else .error enomem := by
  obtain ⟨h1, h2, h3, h4⟩ := h
  unfold Qdma.intrRingSetup
  rw [h1, h2, if_neg (by decide), if_pos ⟨h3, h4⟩]

/-- A ring cannot be allocated. -/
theorem ringSetup_failed (h : s.Aggregates)
    (ha : ¬ ∀ i ≤ qdmaDataVecPerPfMax, c.allocOk i = true) : s.intrRingSetup c = ({ s with
      lib := { s.lib with dev := { s.lib.dev with intrCoalEn := true } } }, enomem) := by
  have hall : ¬ (List.range (qdmaDataVecPerPfMax + 1)).all c.allocOk = true := by
    rw [List.all_eq_true]
    exact fun hall => ha (fun i hi => hall i (List.mem_range.mpr (Nat.lt_succ_of_le hi)))
  unfold PrepDev.intrRingSetup
  rw [ringSetup_aggregates h, if_neg hall]

/-- A device with the rings, whose contexts are still to be programmed. -/
def PrepDev.withRings (s : PrepDev) : PrepDev :=
  { s with
    lib := { s.lib with dev := { s.lib.dev with intrCoalEn := true } }
    coal := .live ((List.range qdmaDataVecPerPfMax).map s.lib.conf.coalEntry) }

theorem ringSetup_ok (h : s.Aggregates) (ha : ∀ i ≤ qdmaDataVecPerPfMax, c.allocOk i = true) :
    s.intrRingSetup c = (s.withRings, 0) := by
  have hall : (List.range (qdmaDataVecPerPfMax + 1)).all c.allocOk = true := by
    rw [List.all_eq_true]
    exact fun i hi => ha i (Nat.le_of_lt_succ (List.mem_range.mp hi))
  unfold PrepDev.intrRingSetup
  rw [ringSetup_aggregates h, if_pos hall]
  rfl

theorem withRings_hasRings (s : PrepDev) : s.withRings.HasRings :=
  ⟨_, rfl, by rw [List.length_map, List.length_range]⟩

/-- The context of the one ring, once it is written or not. -/
def PrepDev.withCtxt (s : PrepDev) (b : Bool) : PrepDev :=
  { s.withRings with ringCtxt := Function.update s.ringCtxt (s.ringIndex 0) b }

theorem withCtxt_ring (s : PrepDev) (b : Bool) :
    (s.withCtxt b).ringCtxt ((s.withCtxt b).ringIndex 0) = b := by
  show Function.update s.ringCtxt (s.ringIndex 0) b (s.ringIndex 0) = b
  exact Function.update_self _ _ _

/-- The contexts, one ring for each function. -/
theorem contextLoop_eq (s : PrepDev) (c : PrepCall) :
    PrepDev.intrContextLoop c (List.range qdmaDataVecPerPfMax) s.withRings
      = if (c.ctxt 0).clr < 0 then (s.withCtxt false, (c.ctxt 0).clr)
        else if (c.ctxt 0).wr < 0 then (s.withCtxt false, (c.ctxt 0).wr)
        else if (c.ctxt 0).rd < 0 then (s.withCtxt true, (c.ctxt 0).rd)
        else (s.withCtxt true, 0) := by
  have hidem : Function.update (s.withCtxt false).ringCtxt (s.ringIndex 0) true
      = Function.update s.ringCtxt (s.ringIndex 0) true := by
    unfold PrepDev.withCtxt
    simp only [Function.update_idem]
  have hup : ({ s.withCtxt false with
      ringCtxt := Function.update (s.withCtxt false).ringCtxt (s.ringIndex 0) true } : PrepDev)
      = s.withCtxt true :=
    congrArg (fun f => ({ s.withRings with ringCtxt := f } : PrepDev)) hidem
  show PrepDev.intrContextLoop c [0] s.withRings = _
  rw [PrepDev.intrContextLoop]
  simp only [PrepDev.intrContextLoop]
  split_ifs
  · rfl
  · rfl
  · exact Prod.ext hup rfl
  · exact Prod.ext hup rfl

/-! ## What is prepared then -/

/-- With rings and contexts, all is prepared but the error interrupts. -/
theorem withCtxt_complete (hf : s.fmap.isSome = true) (herr : s.ErrMaster → s.errIntr = true) :
    (s.withCtxt true).Complete ∧ (s.withCtxt true).Truthful := by
  have hctxt : (s.withCtxt true).HasCtxts := by
    intro i hi
    rw [Nat.lt_one_iff.mp hi]
    exact withCtxt_ring s true
  have hall : (s.withCtxt true).Complete :=
    ⟨hf, fun _ => withRings_hasRings s, fun _ => hctxt, herr⟩
  exact ⟨hall, fun _ => hall, fun _ => ⟨withRings_hasRings s, hctxt⟩, .inr (withRings_hasRings s)⟩

/-- Setting up the error interrupts keeps what is prepared, and completes it. -/
theorem withCtxt_errIntr (hf : s.fmap.isSome = true) :
    (s.withCtxt true).errIntrSetup.Complete ∧ (s.withCtxt true).errIntrSetup.Truthful := by
  unfold PrepDev.errIntrSetup
  by_cases h : (!(s.withCtxt true).lib.conf.pollMode && (s.withCtxt true).masterPf) = true
  · rw [if_pos h]
    exact withCtxt_complete (s := { s with errIntr := true }) hf (fun _ => rfl)
  · rw [if_neg h]
    refine withCtxt_complete hf (fun hm => absurd ?_ h)
    rw [Bool.and_eq_true, Bool.not_eq_true']
    exact hm

/-- Without aggregation there is nothing to prepare but the error interrupts. -/
theorem prepRest_plain (h : ¬ s.Aggregates) (hf : s.fmap.isSome = true) :
    (s.prepRest c).1.Complete ∧ (s.prepRest c).1.Truthful := by
  set s1 : PrepDev := { s with
    lib := { s.lib with dev := { s.lib.dev with intrCoalEn := false } }, coal := .null } with hs1
  have hagg : ¬ s1.Aggregates := h
  have hrest : s.prepRest c = (s1.errIntrSetup, 0) := by
    unfold PrepDev.prepRest
    rw [ringSetup_plain h, if_neg (not_not.mpr rfl)]
    rfl
  have hdone : ∀ x : PrepDev, ¬ x.Aggregates → x.fmap.isSome = true →
      x.lib.dev.intrCoalEn = false → x.coal = .null → (x.ErrMaster → x.errIntr = true) →
      x.Complete ∧ x.Truthful := by
    intro x hx hfm hen hnull herr
    have hall : x.Complete := ⟨hfm, fun ha => absurd ha hx, fun ha => absurd ha hx, herr⟩
    exact ⟨hall, fun _ => hall, fun ht => absurd (hen.symm.trans ht) (by decide), .inl hnull⟩
  rw [hrest]
  show s1.errIntrSetup.Complete ∧ s1.errIntrSetup.Truthful
  unfold PrepDev.errIntrSetup
  by_cases hm : (!s1.lib.conf.pollMode && s1.masterPf) = true
  · rw [if_pos hm]
    exact hdone _ hagg hf rfl rfl (fun _ => rfl)
  · rw [if_neg hm]
    refine hdone _ hagg hf rfl rfl (fun he => absurd ?_ hm)
    rw [Bool.and_eq_true, Bool.not_eq_true']
    exact he

/-- Rings that are not there. -/
theorem no_rings (hlist : ∀ l, s.coal ≠ .live l) : ¬ s.HasRings := by
  rintro ⟨l, hl, -⟩
  exact hlist l hl

theorem right_failed {rv : ℤ} (hrv : rv ≠ 0) : PrepDev.Right (s, rv) ↔ s.Truthful :=
  ⟨fun h => h.2 hrv, fun h => ⟨fun h0 => absurd h0 hrv, fun _ => h⟩⟩

/-- Past the range: no memory for a ring. -/
theorem prepRest_failed (h : s.Aggregates)
    (ha : ¬ ∀ i ≤ qdmaDataVecPerPfMax, c.allocOk i = true) : s.prepRest c = ({ s with
      lib := { s.lib with dev := { s.lib.dev with intrCoalEn := true } } }, enomem) := by
  have hne : enomem ≠ 0 := by decide
  unfold PrepDev.prepRest
  rw [ringSetup_failed h ha, if_pos hne]

/-- A VF has the rings and is refused the contexts. -/
theorem prepRest_vf (h : s.Aggregates) (ha : ∀ i ≤ qdmaDataVecPerPfMax, c.allocOk i = true)
    (hvf : s.lib.dev.vf = true) : s.prepRest c = (s.withRings, c.reply.rv) := by
  have hctxt : s.withRings.intrContextSetup c = (s.withRings, c.reply.rv) := by
    unfold PrepDev.intrContextSetup
    rw [if_neg (by rw [show s.withRings.lib.dev.intrCoalEn = true from rfl]; decide),
      if_pos (show s.withRings.lib.dev.vf = true from hvf)]
  unfold PrepDev.prepRest
  rw [ringSetup_ok h ha, if_neg (not_not.mpr rfl), hctxt, if_pos c.reply.refused]

/-- A PF programs the context of its ring. -/
theorem prepRest_pf (h : s.Aggregates) (ha : ∀ i ≤ qdmaDataVecPerPfMax, c.allocOk i = true)
    (hvf : s.lib.dev.vf = false) : s.prepRest c
      = if (c.ctxt 0).clr < 0 then (s.withCtxt false, (c.ctxt 0).clr)
        else if (c.ctxt 0).wr < 0 then (s.withCtxt false, (c.ctxt 0).wr)
        else if (c.ctxt 0).rd < 0 then (s.withCtxt true, (c.ctxt 0).rd)
        else ((s.withCtxt true).errIntrSetup, 0) := by
  have hctxt : s.withRings.intrContextSetup c
      = PrepDev.intrContextLoop c (List.range qdmaDataVecPerPfMax) s.withRings := by
    unfold PrepDev.intrContextSetup
    rw [if_neg (by rw [show s.withRings.lib.dev.intrCoalEn = true from rfl]; decide),
      if_neg (by rw [show s.withRings.lib.dev.vf = false from hvf]; decide)]
  unfold PrepDev.prepRest
  rw [ringSetup_ok h ha, if_neg (not_not.mpr rfl), hctxt, contextLoop_eq]
  by_cases h1 : (c.ctxt 0).clr < 0
  · rw [if_pos h1, if_pos h1.ne, if_pos h1]
  by_cases h2 : (c.ctxt 0).wr < 0
  · rw [if_neg h1, if_pos h2, if_pos h2.ne, if_neg h1, if_pos h2]
  by_cases h3 : (c.ctxt 0).rd < 0
  · rw [if_neg h1, if_neg h2, if_pos h3, if_pos h3.ne, if_neg h1, if_neg h2, if_pos h3]
  · rw [if_neg h1, if_neg h2, if_neg h3, if_neg (not_not.mpr rfl), if_neg h1, if_neg h2,
      if_neg h3]

/-- **Past the range, with aggregation**: the outcome is right exactly if the rings are allocated
and their contexts written, and read where error interrupts are missing; then all that it leaves
is as it should be. -/
theorem prepRest_right (hf : s.fmap.isSome = true) (hrange : s.lib.initQrange = true)
    (hlist : ∀ l, s.coal ≠ .live l) (hvf : s.lib.dev.vf = true → ∀ i, s.ringCtxt i = false)
    (hagg : s.Aggregates) :
    (PrepDev.Right (s.prepRest c) ↔ s.Programs c) ∧
      (s.Programs c → (s.prepRest c).1.Complete ∧ (s.prepRest c).1.Truthful) := by
  by_cases ha : ∀ i ≤ qdmaDataVecPerPfMax, c.allocOk i = true
  swap
  · -- `intr_coal_en` is set, and there is no ring
    have hbad : ¬ PrepDev.Right (s.prepRest c) := by
      rw [prepRest_failed hagg ha, right_failed (by decide)]
      exact fun ht => no_rings hlist (ht.coalEn rfl).1
    exact ⟨⟨fun h => absurd h hbad, fun h => absurd h.1 ha⟩, fun h => absurd h.1 ha⟩
  by_cases hv : s.lib.dev.vf = true
  · -- the PF refuses the contexts
    have hbad : ¬ PrepDev.Right (s.prepRest c) := by
      rw [prepRest_vf hagg ha hv, right_failed c.reply.refused]
      intro ht
      have hctxt := (ht.coalEn rfl).2 0 Nat.one_pos
      exact absurd ((hvf hv _).symm.trans hctxt) (by decide)
    have hno : ¬ s.Programs c := fun h => absurd (hv.symm.trans h.2.1) (by decide)
    exact ⟨⟨fun h => absurd h hbad, fun h => absurd h hno⟩, fun h => absurd h hno⟩
  have hpf : s.lib.dev.vf = false := Bool.eq_false_iff.mpr hv
  rw [prepRest_pf hagg ha hpf]
  have hunwritten : ¬ (s.withCtxt false).Truthful := by
    intro ht
    have hctxt := (ht.coalEn rfl).2 0 Nat.one_pos
    exact absurd ((withCtxt_ring s false).symm.trans hctxt) (by decide)
  by_cases h1 : (c.ctxt 0).clr < 0
  · have hno : ¬ s.Programs c := fun h => absurd (h.2.2.1 0 Nat.one_pos).1 (not_le.mpr h1)
    rw [if_pos h1, right_failed h1.ne]
    exact ⟨⟨fun h => absurd h hunwritten, fun h => absurd h hno⟩, fun h => absurd h hno⟩
  by_cases h2 : (c.ctxt 0).wr < 0
  · have hno : ¬ s.Programs c := fun h => absurd (h.2.2.1 0 Nat.one_pos).2 (not_le.mpr h2)
    rw [if_neg h1, if_pos h2, right_failed h2.ne]
    exact ⟨⟨fun h => absurd h hunwritten, fun h => absurd h hno⟩, fun h => absurd h hno⟩
  have hwr : ∀ i < qdmaDataVecPerPfMax, 0 ≤ (c.ctxt i).clr ∧ 0 ≤ (c.ctxt i).wr := by
    intro i hi
    rw [Nat.lt_one_iff.mp hi]
    exact ⟨not_lt.mp h1, not_lt.mp h2⟩
  by_cases h3 : (c.ctxt 0).rd < 0
  · -- the contexts are written, but the call fails
    rw [if_neg h1, if_neg h2, if_pos h3, right_failed h3.ne]
    have hread : s.Programs c ↔ (s.ErrMaster → s.errIntr = true) := by
      constructor
      · intro h hm
        by_contra he
        exact absurd (h.2.2.2 hm (Bool.eq_false_iff.mpr he) 0 Nat.one_pos) (not_le.mpr h3)
      · intro h
        exact ⟨ha, hpf, hwr, fun hm he => absurd ((h hm).symm.trans he) (by decide)⟩
    refine ⟨⟨fun ht => hread.mpr (ht.range hrange).err, fun h => ?_⟩, fun h => ?_⟩
    · exact (withCtxt_complete hf (hread.mp h)).2
    · exact withCtxt_complete hf (hread.mp h)
  · rw [if_neg h1, if_neg h2, if_neg h3]
    have hall := withCtxt_errIntr (s := s) hf
    have hprog : s.Programs c := by
      refine ⟨ha, hpf, hwr, fun _ _ i hi => ?_⟩
      rw [Nat.lt_one_iff.mp hi]
      exact not_lt.mp h3
    exact ⟨⟨fun _ => hprog, fun _ => ⟨fun _ => hall.1, fun h => absurd rfl h⟩⟩, fun _ => hall⟩

end Rest

/-! ## Runs -/

/-- Programming the contexts leaves the library's view and the list of rings alone. -/
theorem contextLoop_keeps (c : PrepCall) (is : List ℕ) (s : PrepDev) :
    (PrepDev.intrContextLoop c is s).1.lib = s.lib ∧
      (PrepDev.intrContextLoop c is s).1.coal = s.coal := by
  induction is generalizing s with
  | nil => exact ⟨rfl, rfl⟩
  | cons i is ih =>
      rw [PrepDev.intrContextLoop]
      simp only
      split_ifs
      · exact ⟨rfl, rfl⟩
      · exact ⟨rfl, rfl⟩
      · exact ⟨rfl, rfl⟩
      · exact ih _

theorem contextSetup_keeps (s : PrepDev) (c : PrepCall) :
    (s.intrContextSetup c).1.lib = s.lib ∧ (s.intrContextSetup c).1.coal = s.coal := by
  unfold PrepDev.intrContextSetup
  split_ifs
  · exact ⟨rfl, rfl⟩
  · exact ⟨rfl, rfl⟩
  · exact contextLoop_keeps _ _ _

theorem errIntrSetup_keeps (s : PrepDev) :
    s.errIntrSetup.lib = s.lib ∧ s.errIntrSetup.coal = s.coal := by
  unfold PrepDev.errIntrSetup
  split_ifs
  · exact ⟨rfl, rfl⟩
  · exact ⟨rfl, rfl⟩

/-- The rest of a call leaves `init_qrange` as it is. -/
theorem prepRest_range (s : PrepDev) (c : PrepCall) :
    (s.prepRest c).1.lib.initQrange = s.lib.initQrange := by
  have hring : (s.intrRingSetup c).1.lib.initQrange = s.lib.initQrange := by
    unfold PrepDev.intrRingSetup
    split
    · rfl
    · rfl
  unfold PrepDev.prepRest
  split_ifs
  · exact hring
  · rw [(contextSetup_keeps _ c).1]
    exact hring
  · rw [(errIntrSetup_keeps _).1, (contextSetup_keeps _ c).1]
    exact hring

/-- **What holds between right calls**: nothing is prepared, or all is. -/
structure PrepDev.Inv (s : PrepDev) : Prop where
  before : s.lib.initQrange = false → s.Unprepared
  after : s.lib.initQrange = true → s.Complete ∧ s.Truthful

theorem PrepDev.Unprepared.inv {s : PrepDev} (h : s.Unprepared) : s.Inv :=
  ⟨fun _ => h, fun ht => absurd (h.range.symm.trans ht) (by decide)⟩

/-- **A call is right exactly if its steps go as they must**, and then nothing or all is
prepared. -/
theorem prep_call {s : PrepDev} (h : s.Inv) (c : PrepCall) :
    (s.CallOk c ↔ s.Prepares c) ∧ (s.Prepares c → (s.step c).Inv) := by
  unfold PrepDev.CallOk PrepDev.Prepares PrepDev.step
  cases h0 : s.lib.initQrange with
  | true =>
      -- the call returns success at once
      have heq : s.prepQResource c = (s, 0) := by
        unfold PrepDev.prepQResource
        rw [if_pos h0]
      rw [heq]
      exact ⟨⟨fun _ hf => absurd hf (by decide), fun _ => ⟨fun _ => (h.after h0).1,
        fun hne => absurd rfl hne⟩⟩, fun _ => h⟩
  | false =>
      have hun := h.before h0
      by_cases hfail : s.lib.dev.vf = true ∧ c.fmapRv < 0
      · have heq : s.prepQResource c = (s, c.fmapRv) := by
          unfold PrepDev.prepQResource
          simp only [h0, setQrange_failed hfail.1 hfail.2, Bool.false_eq_true, if_false]
          rw [if_pos hfail.2]
        rw [heq, right_failed hfail.2.ne, if_pos hfail]
        exact ⟨⟨fun ht _ => ht, fun ht => ht rfl⟩, fun _ => h⟩
      · rw [prepQResource_rest h0 hfail, if_neg hfail]
        obtain ⟨hr, -⟩ := setQrange_ok hfail
        generalize (s.deviceSetQrange c).1 = s1 at hr ⊢
        have hafter : (s1.prepRest c).1.Complete ∧ (s1.prepRest c).1.Truthful →
            (s1.prepRest c).1.Inv := by
          intro hall
          have hrange := (prepRest_range s1 c).trans hr.range
          exact ⟨fun hf => absurd (hrange.symm.trans hf) (by decide), fun _ => hall⟩
        by_cases hagg : s.Aggregates
        · obtain ⟨hiff, hall⟩ := prepRest_right (c := c) hr.fmap hr.range
            (by rw [hr.coal]; exact hun.list) (by rw [hr.dev, hr.ringCtxt]; exact hun.vf)
            (hr.aggregates.mpr hagg)
          rw [hiff, hr.programs]
          rw [hr.programs] at hall
          exact ⟨⟨fun h _ _ => h, fun h => h rfl hagg⟩, fun h => hafter (hall (h rfl hagg))⟩
        · have hall := prepRest_plain (c := c) (fun ha => hagg (hr.aggregates.mp ha)) hr.fmap
          exact ⟨⟨fun _ _ ha => absurd ha hagg, fun _ => ⟨fun _ => hall.1, fun _ => hall.2⟩⟩,
            fun _ => hafter hall⟩

/-- What the library is answered in a call. -/
def PrepDev.env (s : PrepDev) (c : PrepCall) : PrepEnv where
  fmapRv := c.fmapRv
  fmapQbase := c.fmapQbase
  allocOk := c.allocOk
  ctxRv := (((s.deviceSetQrange c).1.intrRingSetup c).1.intrContextSetup c).2

theorem setQrange_lib (s : PrepDev) (c : PrepCall) :
    s.lib.deviceSetQrange (s.env c) = ((s.deviceSetQrange c).1.lib, (s.deviceSetQrange c).2) ∧
      (s.deviceSetQrange c).1.coal = s.coal := by
  have henv : s.lib.deviceSetQrange (s.env c)
      = s.lib.deviceSetQrange { fmapRv := c.fmapRv, fmapQbase := c.fmapQbase } := rfl
  rw [henv]
  unfold PrepDev.deviceSetQrange
  simp only
  split_ifs <;> exact ⟨rfl, rfl⟩

/-- **What the library sees** of a call is `IdDev.prepQResource`, and `intr_coal_list` afterwards
is the list it knows. -/
theorem prep_lib (s : PrepDev) (c : PrepCall) :
    (s.step c).lib = (s.lib.prepQResource (s.env c)).1 ∧
      (s.prepQResource c).2 = (s.lib.prepQResource (s.env c)).2 ∧
      (s.step c).coal = s.lib.prepCoal (s.env c) s.coal := by
  unfold PrepDev.step
  cases h0 : s.lib.initQrange with
  -- a call that finds `init_qrange` set does nothing in both
  | true =>
      unfold PrepDev.prepQResource IdDev.prepQResource IdDev.prepCoal
      simp only [h0, if_true, and_self]
  | false =>
      obtain ⟨hlib, hcoal⟩ := setQrange_lib s c
      have hctx : (s.env c).ctxRv
          = (((s.deviceSetQrange c).1.intrRingSetup c).1.intrContextSetup c).2 := rfl
      have hmem : (s.env c).allocOk = c.allocOk := rfl
      unfold PrepDev.prepQResource IdDev.prepQResource IdDev.prepCoal
      simp only [h0, hlib, hctx, hmem, Bool.false_eq_true, if_false]
      generalize s.deviceSetQrange c = r at hcoal ⊢
      -- no range, no ring, or the contexts and the error interrupts
      by_cases hneg : r.2 < 0
      · simp only [hneg, if_true]
        exact ⟨trivial, trivial, hcoal⟩
      · simp only [hneg, if_false]
        cases hring : Qdma.intrRingSetup r.1.lib.conf c.allocOk with
        | error rv =>
            have hne : rv ≠ 0 := by
              rw [intrRingSetup_error hring]
              decide
            have heq : r.1.intrRingSetup c = ({ r.1 with
                lib := { r.1.lib with dev := { r.1.lib.dev with intrCoalEn := true } } }, rv) := by
              unfold PrepDev.intrRingSetup
              rw [hring]
            simp only [heq]
            rw [if_pos hne]
            exact ⟨rfl, rfl, hcoal⟩
        | ok p =>
            obtain ⟨coal, l⟩ := p
            have heq : r.1.intrRingSetup c = ({ r.1 with
                lib := { r.1.lib with dev := { r.1.lib.dev with intrCoalEn := coal } }
                coal := if coal then .live l else .null }, 0) := by
              unfold PrepDev.intrRingSetup
              rw [hring]
            simp only [heq, ne_eq, not_true_eq_false, if_false]
            set x : PrepDev := { r.1 with
              lib := { r.1.lib with dev := { r.1.lib.dev with intrCoalEn := coal } }
              coal := if coal then .live l else .null } with hx
            obtain ⟨hkl, hkc⟩ := contextSetup_keeps x c
            obtain ⟨hel, hec⟩ := errIntrSetup_keeps (x.intrContextSetup c).1
            -- without aggregation the contexts are skipped
            have hplain : coal = false → (x.intrContextSetup c).2 = 0 := by
              intro hc
              unfold PrepDev.intrContextSetup
              rw [if_pos (by show (!coal) = true; rw [hc]; rfl)]
            have hrv : (if coal = true then (x.intrContextSetup c).2 else 0)
                = (x.intrContextSetup c).2 := by
              cases hc : coal with
              | true => rfl
              | false => exact (hplain hc).symm
            rw [hrv]
            split_ifs
            · exact ⟨hel.trans hkl, rfl, (hec.trans hkc).trans (by cases coal <;> rfl)⟩
            · exact ⟨hkl, rfl, hkc.trans (by cases coal <;> rfl)⟩

/-- **When the resources are prepared or tried again**: in a sequence of calls, from the start of
the device on, all are right exactly if in all the steps go as they must. -/
theorem prep_runs_iff {s₀ : PrepDev} (h₀ : s₀.Unprepared) (cs : List PrepCall) :
    (∀ pre c post, cs = pre ++ c :: post → (pre.foldl PrepDev.step s₀).CallOk c) ↔
      ∀ pre c post, cs = pre ++ c :: post → (pre.foldl PrepDev.step s₀).Prepares c :=
  calls_iff (P := fun _ => True) h₀.inv (fun _ c h _ hp => (prep_call h c).2 hp)
    (fun _ c h _ => (prep_call h c).1) (fun _ _ => trivial)

/-- PF 0 with eight vectors and 32 queues, which handles the error interrupts, before its first
queue is added. -/
def prepPf : PrepDev where
  lib := (closedPf.after [.init 8 32]).lib
  funcId := 0
  masterPf := true

theorem prepPf_unprepared : prepPf.Unprepared := ⟨rfl, nofun, nofun⟩

/-- Two queues are added, and nothing fails. -/
def twoPreps : List PrepCall := [{}, {}]

/-- The rings are set up by the first call, and the second finds all prepared. -/
theorem prep_runs_two :
    prepPf.Aggregates ∧
      ∀ pre c post, twoPreps = pre ++ c :: post → (pre.foldl PrepDev.step prepPf).CallOk c := by
  have hprog : prepPf.Programs {} :=
    ⟨fun _ _ => rfl, rfl, fun _ _ => ⟨le_rfl, le_rfl⟩, fun _ _ _ _ => le_rfl⟩
  refine ⟨⟨rfl, rfl, by decide, by decide⟩, (prep_runs_iff prepPf_unprepared twoPreps).mpr
    (along_cons.mpr ⟨fun _ => ?_, along_cons.mpr ⟨fun hrange => ?_, along_nil⟩⟩)⟩
  · rw [if_neg (fun h => absurd h.1 (by decide))]
    exact fun _ => hprog
  · exact absurd hrange (by decide)

/-- **No memory for the ring**, in the first of two calls: it fails with `intr_coal_en` set and no
list, and the second returns success with neither the ring nor its context nor the error
interrupts. -/
theorem prepared_without_rings :
    (prepPf.prepQResource { allocOk := fun i => i = 0 }).2 = enomem ∧
      ¬ prepPf.CallOk { allocOk := fun i => i = 0 } ∧
      ((prepPf.step { allocOk := fun i => i = 0 }).prepQResource {}).2 = 0 ∧
      ¬ (prepPf.step { allocOk := fun i => i = 0 }).CallOk {} := by
  have hagg : prepPf.Aggregates := ⟨rfl, rfl, by decide, by decide⟩
  have hnull : (prepPf.step { allocOk := fun i => i = 0 }).coal = .null := rfl
  have hrings : ¬ (prepPf.step { allocOk := fun i => i = 0 }).HasRings :=
    no_rings (fun l hl => by rw [hnull] at hl; cases hl)
  refine ⟨by decide, fun h => ?_, by decide, fun h => ?_⟩
  · exact hrings ((h.2 (by decide)).coalEn rfl).1
  · exact hrings ((h.1 (by decide)).rings hagg)

end Qdma
