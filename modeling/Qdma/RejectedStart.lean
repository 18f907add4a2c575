/-
# A rejected start

The failures of `qdma_queue_start`.  Before it takes the queue over it may fail to read the CSR
tables or find the queue in use; the first exit frees the rings and releases a lock it did not
take, and the second comes after `qdma_descq_config_complete` has set the indices back.  Once the
queue is taken over, ring allocation or context programming may fail; the second leaves the
queue counted for its vector.  `start_rejected_iff` says when none of this does harm.
-/
import Qdma.Locking
import Qdma.Offline
import Qdma.RxPages

namespace Qdma

open LockTrace

/-! ## A queue that is configured already -/

/-- `qdma_descq_config_complete` finds everything as it would set it. -/
structure Descq.AsConfigured (d : Descq) (csr : GlobalCsrConf) : Prop where
  pidx : d.pidx = 0
  cidx : d.cidx = 0
  pidxWrb : d.pidxWrb = 0
  cidxWrb : d.cidxWrb = 0
  credit : d.credit = 0
  avail : d.avail = u32Sub d.conf.rngsz 1
  rngsz : d.conf.rngsz = u32Sub (csr.ringSz d.conf.descRngSzIdx) 1
  rngszWrb : d.conf.rngszWrb = u32Sub (csr.ringSz d.conf.descRngSzIdx) 1
  c2hBufsz : d.conf.c2hBufsz = csr.c2hBufSz d.conf.c2hBufSzIdx
  cmpl : (d.conf.c2h && d.conf.st) = true → d.conf.cmplDescSz ≠ descSzRsv ∧
    d.wbEntryLen = 8 <<< d.conf.cmplDescSz ∧ (d.wbEntryLen > 8 → d.conf.cmplUddEn = true)

theorem ringConfigComplete_eq_iff (d : Descq) (csr : GlobalCsrConf) :
    ringConfigComplete d csr = d ↔ d.pidx = 0 ∧ d.cidx = 0 ∧ d.pidxWrb = 0 ∧ d.cidxWrb = 0 ∧
      d.credit = 0 ∧ d.avail = u32Sub d.conf.rngsz 1 ∧
      d.conf.rngsz = u32Sub (csr.ringSz d.conf.descRngSzIdx) 1 ∧
      d.conf.rngszWrb = u32Sub (csr.ringSz d.conf.descRngSzIdx) 1 ∧
      d.conf.c2hBufsz = csr.c2hBufSz d.conf.c2hBufSzIdx := by
  constructor
  · intro h
    have hrng := congrArg (fun q => q.conf.rngsz) h
    have havail := congrArg Descq.avail h
    simp only [ringConfigComplete] at hrng havail
    refine ⟨(congrArg Descq.pidx h).symm, (congrArg Descq.cidx h).symm,
      (congrArg Descq.pidxWrb h).symm, (congrArg Descq.cidxWrb h).symm,
      (congrArg Descq.credit h).symm, ?_, hrng.symm, (congrArg (fun q => q.conf.rngszWrb) h).symm,
      (congrArg (fun q => q.conf.c2hBufsz) h).symm⟩
    rw [← havail, hrng]
  · obtain ⟨conf, err, enabled, inited, online, color, intrId, wrkthp, workList, wbthp, pendList,
      avail, pidx, cidx, credit⟩ := d
    obtain ⟨⟩ := conf
    rintro ⟨h1, h2, h3, h4, h5, h6, h7, h8, h9⟩
    simp only at h1 h2 h3 h4 h5 h6 h7 h8 h9
    unfold ringConfigComplete
    simp only
    rw [h1, h2, h3, h4, h5, h6, ← h7, ← h9]
    rw [← h7] at h8
    rw [h8]

theorem cmplConfigComplete_eq_iff (d : Descq) :
    cmplConfigComplete d = d ↔ d.conf.cmplDescSz ≠ descSzRsv ∧
      d.wbEntryLen = 8 <<< d.conf.cmplDescSz ∧ (d.wbEntryLen > 8 → d.conf.cmplUddEn = true) := by
  constructor
  · intro h
    have hsz := congrArg (fun q => q.conf.cmplDescSz) h
    have hlen := congrArg Descq.wbEntryLen h
    have hudd := congrArg (fun q => q.conf.cmplUddEn) h
    unfold cmplConfigComplete at hsz hlen hudd
    simp only at hsz hlen hudd
    have hne : d.conf.cmplDescSz ≠ descSzRsv := by
      intro heq
      rw [if_pos heq, heq] at hsz
      exact absurd hsz (by decide)
    rw [if_neg hne] at hlen hudd
    refine ⟨hne, hlen.symm, fun hgt => ?_⟩
    rw [hlen, if_pos hgt] at hudd
    exact hudd.symm
  · obtain ⟨conf, err, enabled, inited, online, color, intrId, wrkthp, workList, wbthp, pendList,
      avail, pidx, cidx, credit, desc, wbEntryLen⟩ := d
    obtain ⟨⟩ := conf
    rintro ⟨hne, hlen, hudd⟩
    simp only at hne hlen hudd
    unfold cmplConfigComplete
    simp only
    rw [if_neg hne, ← hlen]
    by_cases hgt : wbEntryLen > 8
    · rw [if_pos hgt, hudd hgt]
    · rw [if_neg hgt]

/-- **It leaves the queue alone just when that is so.** -/
theorem configComplete_eq_iff (d : Descq) (csr : GlobalCsrConf) :
    qdmaDescqConfigComplete d csr = d ↔ d.AsConfigured csr := by
  have hkind : qdmaDescqConfigComplete d csr = if d.conf.c2h && d.conf.st then
      cmplConfigComplete (ringConfigComplete d csr) else ringConfigComplete d csr := rfl
  -- the two parts set different fields
  have hring : qdmaDescqConfigComplete d csr = d → ringConfigComplete d csr = d := by
    intro h
    rw [hkind] at h
    split_ifs at h
    · have hrng := congrArg (fun q => q.conf.rngsz) h
      have havail := congrArg Descq.avail h
      simp only [ringConfigComplete, cmplConfigComplete] at hrng havail
      refine (ringConfigComplete_eq_iff d csr).mpr ⟨(congrArg Descq.pidx h).symm,
        (congrArg Descq.cidx h).symm, (congrArg Descq.pidxWrb h).symm,
        (congrArg Descq.cidxWrb h).symm, (congrArg Descq.credit h).symm, ?_, hrng.symm,
        (congrArg (fun q => q.conf.rngszWrb) h).symm, (congrArg (fun q => q.conf.c2hBufsz) h).symm⟩
      rw [← havail, hrng]
    · exact h
  constructor
  · intro h
    have hr := hring h
    obtain ⟨h1, h2, h3, h4, h5, h6, h7, h8, h9⟩ := (ringConfigComplete_eq_iff d csr).mp hr
    refine ⟨h1, h2, h3, h4, h5, h6, h7, h8, h9, fun hc => ?_⟩
    rw [hkind, if_pos hc, hr] at h
    exact (cmplConfigComplete_eq_iff d).mp h
  · rintro ⟨h1, h2, h3, h4, h5, h6, h7, h8, h9, hcmpl⟩
    have hr := (ringConfigComplete_eq_iff d csr).mpr ⟨h1, h2, h3, h4, h5, h6, h7, h8, h9⟩
    rw [hkind, hr]
    by_cases hc : (d.conf.c2h && d.conf.st) = true
    · rw [if_pos hc]
      exact (cmplConfigComplete_eq_iff d).mpr (hcmpl hc)
    · rw [if_neg hc]

/-! ## Allocations that succeed -/

/-- All that a queue of this kind with `n` entries asks for is there. -/
structure AllocEnv.Succeeds (env : AllocEnv) (c2h : Bool) (n : ℕ) : Prop where
  desc : env.desc = true
  wrb : c2h = true → env.wrb = true
  sdesc : c2h = true → env.sdesc = true
  fill : c2h = true → ∀ i < n, ∃ pg addr, env.fill i = .ok pg addr

theorem flqFillFrom_ok_iff (fill : ℕ → FillOutcome) (n i : ℕ) (d : Descq) :
    ¬ (flqFillFrom fill n i d).2 < 0 ↔ ∀ k < n, ∃ pg addr, fill (i + k) = .ok pg addr := by
  induction n generalizing i d with
  | zero => exact iff_of_true (lt_irrefl 0) nofun
  | succ n ih =>
      have hsplit : (∀ k < n + 1, ∃ pg addr, fill (i + k) = .ok pg addr) ↔
          (∃ pg addr, fill i = .ok pg addr) ∧
            ∀ k < n, ∃ pg addr, fill (i + 1 + k) = .ok pg addr := by
        constructor
        · intro h
          exact ⟨h 0 n.succ_pos, fun k hk => by
            rw [Nat.add_assoc, Nat.add_comm 1 k]
            exact h (k + 1) (Nat.succ_lt_succ hk)⟩
        · rintro ⟨h0, h⟩ k hk
          cases k with
          | zero => exact h0
          | succ k =>
              have := h k (Nat.lt_of_succ_lt_succ hk)
              rwa [Nat.add_assoc, Nat.add_comm 1 k] at this
      rw [hsplit, flqFillFrom]
      cases fill i with
      | noMem => exact iff_of_false (not_not.mpr (show enomem < 0 by decide)) (by simp)
      | mapErr => exact iff_of_false (not_not.mpr (show einval < 0 by decide)) (by simp)
      | ok pg addr =>
          simp only [flqFillOne, lt_irrefl, if_false, FillOutcome.ok.injEq, exists_and_left,
            exists_eq', and_true, true_and]
          exact ih (i + 1) _

theorem flqAllocResource_ok_iff (d : Descq) (sd : Bool) (fill : ℕ → FillOutcome) :
    ¬ (descqFlqAllocResource d sd fill).2 < 0 ↔
      sd = true ∧ ∀ i < d.flq.size, ∃ pg addr, fill i = .ok pg addr := by
  unfold descqFlqAllocResource
  by_cases hsd : sd = true
  swap
  · rw [if_neg hsd]
    exact iff_of_false (not_not.mpr (show enomem < 0 by decide)) (fun h => hsd h.1)
  rw [if_pos hsd]
  have hiff := flqFillFrom_ok_iff fill d.flq.size 0 { d with flq := { d.flq with
    sdescAlloc := true, sdesc := fun _ => {}, sdescInfo := fun _ => {} } }
  simp only [Nat.zero_add] at hiff
  rw [← hiff]
  simp only
  constructor
  · intro h
    refine ⟨hsd, fun hneg => h ?_⟩
    rw [if_pos hneg]
    exact hneg
  · rintro ⟨-, h⟩ hneg
    rw [if_neg h] at hneg
    exact h hneg

/-- **`qdma_descq_alloc_resource` fails just when an allocation does.** -/
theorem allocResource_fails_iff (d : Descq) (env : AllocEnv) (irq : Option ℕ) :
    (qdmaDescqAllocResource d env irq).2 < 0 ↔
      ¬ env.Succeeds (d.conf.st && d.conf.c2h) d.conf.rngsz := by
  have hoom : qdmaErrOutOfMemory < 0 := by decide
  unfold qdmaDescqAllocResource
  by_cases hdesc : env.desc = true
  swap
  · rw [if_neg hdesc]
    exact iff_of_true hoom (fun h => hdesc h.desc)
  rw [if_pos hdesc]
  simp only
  have hk : ((descRingAlloc d).conf.st && (descRingAlloc d).conf.c2h)
      = (d.conf.st && d.conf.c2h) := rfl
  rw [hk]
  cases hkind : (d.conf.st && d.conf.c2h) with
  | false =>
      rw [if_neg Bool.false_ne_true]
      exact iff_of_false (by rw [if_neg (lt_irrefl (0 : ℤ))]; exact lt_irrefl 0)
        (not_not.mpr ⟨hdesc, nofun, nofun, nofun⟩)
  | true =>
      rw [if_pos rfl]
      by_cases hwrb : env.wrb = true
      swap
      · rw [if_neg hwrb]
        exact iff_of_true (by rw [if_pos hoom]; exact hoom) (fun h => hwrb (h.wrb rfl))
      rw [if_pos hwrb]
      set d1 : Descq := { wrbRingAlloc (descRingAlloc d) with
        descWrb := { alloc := true }, descWrbCur := 0 } with hd1
      have hflq : ¬ (descqFlqAllocResource d1 env.sdesc env.fill).2 < 0 ↔
          env.sdesc = true ∧ ∀ i < d.conf.rngsz, ∃ pg addr, env.fill i = .ok pg addr :=
        flqAllocResource_ok_iff d1 env.sdesc env.fill
      by_cases hrv : (descqFlqAllocResource d1 env.sdesc env.fill).2 < 0
      · refine iff_of_true (by rw [if_pos hrv]; exact hoom) (fun h => ?_)
        exact hflq.mpr ⟨h.sdesc rfl, h.fill rfl⟩ hrv
      · obtain ⟨hsd, hfill⟩ := hflq.mp hrv
        refine iff_of_false (by rw [if_neg hrv]; exact lt_irrefl 0) (not_not.mpr ?_)
        exact ⟨hdesc, fun _ => hwrb, fun _ => hsd, fun _ => hfill⟩

/-! ## The exits of `qdma_queue_start` -/

/-- The start is turned down before it takes the queue over: there is no such queue, the CSR
tables cannot be read, or the queue is in use. -/
def QdmaDev.StartRefused (x : QdmaDev) (id : ℕ) (env : StartEnv) : Prop :=
  x.Has id → env.csr = none ∨ (x.descq id).inited = true ∨ (x.descq id).online = true

/-- The queue between its two locked sections, once the resources are asked for. -/
def QdmaDev.startAlloc (x : QdmaDev) (id : ℕ) (env : StartEnv) : Descq × ℤ :=
  qdmaDescqAllocResource (startCheck (startConfig (x.descq id) env.csr).1).1 env.alloc x.pickVec

/-- The locks one call takes and releases. -/
def QdmaDev.startLocks (x : QdmaDev) (id : ℕ) (env : StartEnv) : LockPath :=
  let see : StartPoint → QdmaDev
    | .enter => x
    | .check => x.setDescq id (startConfig (x.descq id) env.csr).1
    | .alloc => x.setDescq id (startCheck (startConfig (x.descq id) env.csr).1).1
    | _ => (x.queueStart id env).1
  queueStartLocks see id
    { config := (startConfig (x.descq id) env.csr).2
      alloc := (x.startAlloc id env).2
      progHw := (startProgHw (x.startAlloc id env).1 0 env).2 }

/-- The locks are as they were just when the CSR tables can be read. -/
theorem startLocks_iff (x : QdmaDev) (id : ℕ) (env : StartEnv) :
    Balanced (x.startLocks id env) ↔ (x.Has id → env.csr ≠ none) := by
  unfold QdmaDev.startLocks
  rw [queueStartLocks_iff]
  refine imp_congr_right (fun _ => ?_)
  cases env.csr with
  | none => exact iff_of_false (not_le.mpr (show einval < 0 by decide)) (fun h => h rfl)
  | some csr => exact iff_of_true le_rfl (Option.some_ne_none csr)

theorem queueStart_missing {x : QdmaDev} {id : ℕ} (h : ¬ x.Has id) (env : StartEnv) :
    x.queueStart id env = (x, qdmaErrInvalidQidx) := if_neg h

/-- A queue in use: what is left is what `qdma_descq_config_complete` did. -/
theorem queueStart_inUse {x : QdmaDev} {id : ℕ} (h : x.Has id) {env : StartEnv}
    {csr : GlobalCsrConf} (hcsr : env.csr = some csr)
    (huse : (x.descq id).inited = true ∨ (x.descq id).online = true) :
    x.queueStart id env
      = (x.setDescq id (qdmaDescqConfigComplete (x.descq id) csr), qdmaErrInvalidDescqState) := by
  obtain ⟨-, hinit, hon⟩ := configComplete_flags (x.descq id) csr
  have hcheck : startCheck (qdmaDescqConfigComplete (x.descq id) csr)
      = (qdmaDescqConfigComplete (x.descq id) csr, qdmaErrInvalidDescqState) := by
    refine if_pos ?_
    rw [hinit, hon]
    rcases huse with huse | huse
    · rw [huse, Bool.or_true, Bool.true_or]
    · rw [huse, Bool.or_true]
  unfold QdmaDev.queueStart startConfig
  rw [if_pos h, hcsr]
  simp only [lt_irrefl, if_false, hcheck]
  exact if_pos (by decide)

/-- A queue that is taken over is configured and marked. -/
theorem startTaken_spec {x : QdmaDev} {id : ℕ} {env : StartEnv} (h : ¬ x.StartRefused id env) :
    x.Has id ∧ ∃ csr, env.csr = some csr ∧ startCheck (startConfig (x.descq id) env.csr).1
      = ((qdmaDescqConfigComplete (x.descq id) csr).markInited, 0) := by
  unfold QdmaDev.StartRefused at h
  push Not at h
  obtain ⟨hhas, hcsr, hinit, hon⟩ := h
  obtain ⟨csr, hcsr⟩ := Option.ne_none_iff_exists'.mp hcsr
  obtain ⟨hen', hinit', hon'⟩ := configComplete_flags (x.descq id) csr
  refine ⟨hhas, csr, hcsr, ?_⟩
  rw [hcsr]
  refine if_neg ?_
  show ¬ (!(qdmaDescqConfigComplete (x.descq id) csr).enabled ||
    (qdmaDescqConfigComplete (x.descq id) csr).inited ||
    (qdmaDescqConfigComplete (x.descq id) csr).online) = true
  rw [hen', hinit', hon', hhas.2.2, Bool.eq_false_iff.mpr hinit, Bool.eq_false_iff.mpr hon]
  decide

/-- What is left of the call then. -/
theorem queueStart_taken {x : QdmaDev} {id : ℕ} {env : StartEnv}
    (h : ¬ x.StartRefused id env) :
    x.queueStart id env =
      (if (x.startAlloc id env).2 < 0 then x.setDescq id (x.startAlloc id env).1
        else (x.setDescq id (x.startAlloc id env).1).countVec).startFinish id
          (x.startAlloc id env).2 env := by
  obtain ⟨hhas, csr, hcsr, hcheck⟩ := startTaken_spec h
  unfold QdmaDev.queueStart QdmaDev.startAlloc
  rw [if_pos hhas]
  simp only [hcheck, lt_irrefl, if_false]
  rw [if_neg (by rw [hcsr]; exact lt_irrefl 0)]

/-! ## A queue given back -/

/-- What a failure makes of a queue: configured, not in use, and without resources. -/
structure Descq.GivenBack (d d' : Descq) : Prop where
  enabled : d'.enabled = true
  inited : d'.inited = false
  online : d'.online = false
  desc : d'.desc.alloc = false
  descWrb : d'.descWrb.alloc = false
  bufs : d'.flq.sdescAlloc = true → d.flq.sdescAlloc = true

/-- The free list goes with the completion ring. -/
theorem freeResource_bufs {d : Descq} (h : (qdmaDescqFreeResource d).flq.sdescAlloc = true) :
    d.descWrb.alloc = false ∧ d.flq.sdescAlloc = true := by
  obtain ⟨hflq, -, -⟩ := freeResource_flq d
  rw [hflq] at h
  by_cases hw : d.descWrb.alloc = true
  · rw [if_pos hw] at h
    exact absurd h Bool.false_ne_true
  · rw [if_neg hw] at h
    exact ⟨Bool.eq_false_iff.mpr hw, h⟩

/-- The label `free_resource`. -/
theorem Descq.GivenBack.free {d d1 : Descq} (hen : d1.enabled = true) (hon : d1.online = false)
    (hbufs : d1.descWrb.alloc = false → d1.flq.sdescAlloc = true → d.flq.sdescAlloc = true) :
    d.GivenBack (startFreeResource d1) := by
  obtain ⟨hdesc, hwrb⟩ := freeResource_noRings d1
  have hflags : RingFrame (fun d : Descq => (d.enabled, d.online)) :=
    ⟨fun _ _ _ _ _ => rfl, fun _ _ => rfl, fun _ _ => rfl⟩
  have heq := hflags.free d1
  refine ⟨(congrArg Prod.fst heq).trans hen, rfl, (congrArg Prod.snd heq).trans hon, hdesc, hwrb,
    fun h => ?_⟩
  obtain ⟨h1, h2⟩ := freeResource_bufs h
  exact hbufs h1 h2

/-- Buffers allocated go with a completion ring. -/
theorem allocResource_bufs {d : Descq} {env : AllocEnv} {irq : Option ℕ}
    (hw : (qdmaDescqAllocResource d env irq).1.descWrb.alloc = false)
    (h : (qdmaDescqAllocResource d env irq).1.flq.sdescAlloc = true) :
    d.flq.sdescAlloc = true := by
  have hbufs : (allocRings d env).1.descWrb.alloc = false →
      (allocRings d env).1.flq.sdescAlloc = true → d.flq.sdescAlloc = true := by
    unfold allocRings
    split_ifs
    · exact fun _ h => h
    · intro hno
      rw [(flqAllocResource_life _ _ _).2] at hno
      exact absurd hno (show ¬ true = false by decide)
    · exact fun _ h => h
    · exact fun _ h => h
  rw [allocResource_eq] at h hw
  by_cases hrv : (allocRings d env).2 < 0
  · rw [if_pos hrv] at h
    obtain ⟨h1, h2⟩ := freeResource_bufs h
    exact hbufs h1 h2
  · rw [if_neg hrv] at h hw
    exact hbufs hw h

/-- The queue with its resources, or without them, is still to be brought up. -/
theorem startAlloc_spec {x : QdmaDev} {id : ℕ} {env : StartEnv} (h : ¬ x.StartRefused id env) :
    ∃ csr, env.csr = some csr ∧ (x.startAlloc id env).1.enabled = true ∧
      (x.startAlloc id env).1.online = false ∧
      (x.startAlloc id env).1.conf = (qdmaDescqConfigComplete (x.descq id) csr).conf ∧
      ((x.startAlloc id env).1.descWrb.alloc = false →
        (x.startAlloc id env).1.flq.sdescAlloc = true → (x.descq id).flq.sdescAlloc = true) ∧
      ((x.startAlloc id env).2 < 0 ↔ ¬ env.alloc.Succeeds
        ((x.descq id).conf.st && (x.descq id).conf.c2h)
        (u32Sub (csr.ringSz (x.descq id).conf.descRngSzIdx) 1)) := by
  obtain ⟨hhas, csr, hcsr, hcheck⟩ := startTaken_spec h
  have hon : (x.descq id).online = false := by
    unfold QdmaDev.StartRefused at h
    push Not at h
    exact Bool.eq_false_iff.mpr h.2.2.2
  obtain ⟨hen', -, hon'⟩ := configComplete_flags (x.descq id) csr
  have hframe : RingFrame (fun d : Descq => (d.enabled, d.online, d.conf)) :=
    ⟨fun _ _ _ _ _ => rfl, fun _ _ => rfl, fun _ _ => rfl⟩
  have hpart := hframe.alloc (fun _ _ => rfl) (qdmaDescqConfigComplete (x.descq id) csr).markInited
    env.alloc x.pickVec
  have hconf : ((qdmaDescqConfigComplete (x.descq id) csr).conf.st &&
      (qdmaDescqConfigComplete (x.descq id) csr).conf.c2h)
        = ((x.descq id).conf.st && (x.descq id).conf.c2h) ∧
      (qdmaDescqConfigComplete (x.descq id) csr).conf.rngsz
        = u32Sub (csr.ringSz (x.descq id).conf.descRngSzIdx) 1 ∧
      (qdmaDescqConfigComplete (x.descq id) csr).flq.sdescAlloc = (x.descq id).flq.sdescAlloc := by
    unfold qdmaDescqConfigComplete
    simp only
    split_ifs <;> exact ⟨rfl, rfl, rfl⟩
  refine ⟨csr, hcsr, ?_⟩
  unfold QdmaDev.startAlloc
  rw [hcheck]
  refine ⟨(congrArg (·.1) hpart).trans (hen'.trans hhas.2.2),
    (congrArg (·.2.1) hpart).trans (hon'.trans hon), congrArg (·.2.2) hpart, fun hw hs => ?_, ?_⟩
  · rw [← hconf.2.2]
    exact allocResource_bufs (d := (qdmaDescqConfigComplete (x.descq id) csr).markInited) hw hs
  · rw [← hconf.1, ← hconf.2.1]
    exact allocResource_fails_iff _ _ _

/-- The second locked section, if it fails. -/
theorem startProgHw_back {d d1 : Descq} {rv : ℤ} {env : StartEnv}
    (hen : d1.enabled = true) (hon : d1.online = false)
    (hbufs : d1.descWrb.alloc = false → d1.flq.sdescAlloc = true → d.flq.sdescAlloc = true)
    (hneg : (startProgHw d1 rv env).2 < 0) :
    d.GivenBack (startProgHw d1 rv env).1 ∧ (startProgHw d1 rv env).1.conf = d1.conf := by
  have hconf : RingFrame Descq.conf := ⟨fun _ _ _ _ _ => rfl, fun _ _ => rfl, fun _ _ => rfl⟩
  unfold startProgHw at hneg ⊢
  by_cases hrv : rv < 0
  · rw [if_pos hrv]
    exact ⟨.free hen hon hbufs, hconf.free d1⟩
  rw [if_neg hrv] at hneg ⊢
  cases hctx : env.ctx with
  | fail valid =>
      have heio : eio < 0 := by decide
      show d.GivenBack (if eio < 0 then _ else _ : Descq × ℤ).1 ∧
        (if eio < 0 then _ else _ : Descq × ℤ).1.conf = d1.conf
      rw [if_pos heio]
      exact ⟨.free hen hon hbufs, hconf.free _⟩
  | ok =>
      rw [hctx] at hneg
      have hok : (qdmaDescqProgHw d1 .ok).2 = 0 := by
        unfold qdmaDescqProgHw
        simp only
        split_ifs <;> rfl
      simp only [hok, lt_irrefl, if_false] at hneg

/-- It fails if the resources are not there, or the contexts cannot be programmed. -/
theorem startProgHw_neg_iff (d : Descq) (rv : ℤ) (env : StartEnv) :
    (startProgHw d rv env).2 < 0 ↔ rv < 0 ∨ ∃ valid, env.ctx = .fail valid := by
  unfold startProgHw
  by_cases hrv : rv < 0
  · rw [if_pos hrv]
    exact iff_of_true hrv (.inl hrv)
  rw [if_neg hrv]
  cases env.ctx with
  | fail valid =>
      refine iff_of_true ?_ (.inr ⟨valid, rfl⟩)
      show (if eio < 0 then _ else _ : Descq × ℤ).2 < 0
      rw [if_pos (show eio < 0 by decide)]
      exact show eio < 0 by decide
  | ok =>
      have hok : (qdmaDescqProgHw d .ok).2 = 0 := by
        unfold qdmaDescqProgHw
        simp only
        split_ifs <;> rfl
      refine iff_of_false ?_ (fun h => h.elim hrv nofun)
      simp only [hok, lt_irrefl, if_false, not_false_eq_true]

/-- Counting for a vector changes the counts of the vectors only. -/
theorem countVec_eq (x : QdmaDev) : ∃ cnt, x.countVec = { x with intrListCnt := cnt } := by
  unfold QdmaDev.countVec
  split
  · split_ifs
    · exact ⟨_, rfl⟩
    · exact ⟨_, rfl⟩
  · exact ⟨_, rfl⟩

/-- **A queue is counted** for each vector it has to itself. -/
theorem countVec_same_iff (x : QdmaDev) :
    x.countVec.intrListCnt = x.intrListCnt ↔ x.numVecs = 0 ∨ x.intrCoalEn = true := by
  unfold QdmaDev.countVec QdmaDev.pickVec
  by_cases h0 : x.numVecs = 0
  · rw [if_pos h0]
    exact iff_of_true rfl (.inl h0)
  rw [if_neg h0]
  by_cases hagg : x.intrCoalEn = true
  · rw [if_pos hagg]
    simp only [hagg, if_true, or_true]
  · rw [if_neg hagg]
    simp only
    rw [if_neg hagg]
    refine iff_of_false (fun h => ?_) (not_or.mpr ⟨h0, hagg⟩)
    generalize pickVecLoop x.intrListCnt (x.numVecs - x.dvecStartIdx) x.dvecStartIdx
      (x.intrListCnt x.dvecStartIdx) x.dvecStartIdx = v at h
    have hv := congrFun h v
    simp only [Function.update_self] at hv
    omega

/-! ## The law -/

/-- A start that is turned down changes nothing and says so. -/
structure QdmaDev.LeavesAll (x : QdmaDev) (id : ℕ) (env : StartEnv) : Prop where
  rv : (x.queueStart id env).2 < 0
  dev : (x.queueStart id env).1 = x
  locks : Balanced (x.startLocks id env)

/-- A start that fails later gives the queue back, and leaves nothing behind elsewhere. -/
structure QdmaDev.TakesBack (x : QdmaDev) (id : ℕ) (env : StartEnv) : Prop where
  queue : (x.descq id).GivenBack ((x.queueStart id env).1.descq id)
  conf : ∃ csr, env.csr = some csr ∧ ((x.queueStart id env).1.descq id).conf
    = (qdmaDescqConfigComplete (x.descq id) csr).conf
  others : ∀ id' ≠ id, (x.queueStart id env).1.descq id' = x.descq id'
  wrk : (x.queueStart id env).1.wrk = x.wrk
  wb : (x.queueStart id env).1.wb = x.wb
  intrList : (x.queueStart id env).1.intrList = x.intrList
  intrListCnt : (x.queueStart id env).1.intrListCnt = x.intrListCnt
  locks : Balanced (x.startLocks id env)

/-- The exits that do no harm: the CSR tables are read, a queue in use is as it was configured, and
no contexts fail on a device whose queues have vectors to themselves. -/
structure QdmaDev.StartSafe (x : QdmaDev) (id : ℕ) (env : StartEnv) : Prop where
  before : x.Has id → ∃ csr, env.csr = some csr ∧
    ((x.descq id).inited = true ∨ (x.descq id).online = true → (x.descq id).AsConfigured csr)
  after : ∀ csr valid, ¬ x.StartRefused id env → env.csr = some csr →
    env.alloc.Succeeds ((x.descq id).conf.st && (x.descq id).conf.c2h)
      (u32Sub (csr.ringSz (x.descq id).conf.descRngSzIdx) 1) →
    env.ctx = .fail valid → x.numVecs = 0 ∨ x.intrCoalEn = true

/-- Before the queue is taken over. -/
theorem leavesAll_iff {x : QdmaDev} {id : ℕ} {env : StartEnv} (h : x.StartRefused id env) :
    x.LeavesAll id env ↔ (x.Has id → ∃ csr, env.csr = some csr ∧ (x.descq id).AsConfigured csr) := by
  have hlocks := startLocks_iff x id env
  by_cases hhas : x.Has id
  swap
  · have heq := queueStart_missing hhas env
    refine iff_of_true ⟨?_, ?_, hlocks.mpr (fun h => absurd h hhas)⟩ (fun h => absurd h hhas)
    · rw [heq]
      exact show qdmaErrInvalidQidx < 0 by decide
    · rw [heq]
  cases hcsr : env.csr with
  | none =>
      refine iff_of_false (fun hall => ?_) (fun hall => ?_)
      · exact hlocks.mp hall.locks hhas hcsr
      · obtain ⟨csr, hnone, -⟩ := hall hhas
        exact absurd hnone.symm (Option.some_ne_none csr)
  | some csr =>
      have huse : (x.descq id).inited = true ∨ (x.descq id).online = true :=
        (h hhas).resolve_left (by rw [hcsr]; exact Option.some_ne_none csr)
      have heq := queueStart_inUse hhas hcsr huse
      have hdev : (x.queueStart id env).1 = x ↔ (x.descq id).AsConfigured csr := by
        rw [← configComplete_eq_iff, heq]
        constructor
        · intro hx
          have hq := congrArg (fun y : QdmaDev => y.descq id) hx
          simp only [setDescq_self] at hq
          exact hq
        · intro hq
          unfold QdmaDev.setDescq
          rw [hq, Function.update_eq_self]
      constructor
      · intro hall _
        exact ⟨csr, rfl, hdev.mp hall.dev⟩
      · intro hall
        obtain ⟨csr', hsome, hconf⟩ := hall hhas
        obtain rfl := Option.some.inj hsome
        refine ⟨?_, hdev.mpr hconf, hlocks.mpr (fun _ => by rw [hcsr]; exact Option.some_ne_none csr)⟩
        rw [heq]
        exact show qdmaErrInvalidDescqState < 0 by decide

/-- The end of a call that takes the queue over: `y` is the device with the queue taken, which may
be counted for a vector. -/
theorem queueStart_finish {x : QdmaDev} {id : ℕ} {env : StartEnv} (h : ¬ x.StartRefused id env) :
    ∃ y : QdmaDev, (∃ cnt, y = { x.setDescq id (x.startAlloc id env).1 with intrListCnt := cnt }) ∧
      (y.intrListCnt = x.intrListCnt ↔
        ((x.startAlloc id env).2 < 0 ∨ x.numVecs = 0 ∨ x.intrCoalEn = true)) ∧
      x.queueStart id env =
        let (d, rv) := startProgHw (x.startAlloc id env).1 (x.startAlloc id env).2 env
        if rv < 0 then (y.setDescq id d, rv)
        else (((y.setDescq id d).threadAddWork id).intrLink id, 0) := by
  have heq := queueStart_taken h
  set a := x.startAlloc id env with ha
  set y := if a.2 < 0 then x.setDescq id a.1 else (x.setDescq id a.1).countVec with hy
  have hcnt : ∃ cnt, y = { x.setDescq id a.1 with intrListCnt := cnt } := by
    rw [hy]
    split_ifs
    · exact ⟨x.intrListCnt, rfl⟩
    · exact countVec_eq _
  have hself : y.descq id = a.1 := by
    obtain ⟨cnt, hcnt⟩ := hcnt
    rw [hcnt]
    exact setDescq_self x id a.1
  refine ⟨y, hcnt, ?_, ?_⟩
  · rw [hy]
    by_cases hfail : a.2 < 0
    · rw [if_pos hfail]
      exact iff_of_true rfl (.inl hfail)
    · rw [if_neg hfail]
      refine (countVec_same_iff (x.setDescq id a.1)).trans ⟨.inr, fun hor => ?_⟩
      exact hor.resolve_left hfail
  · rw [heq]
    unfold QdmaDev.startFinish
    rw [hself]

theorem queueStart_neg_iff {x : QdmaDev} {id : ℕ} {env : StartEnv} (h : ¬ x.StartRefused id env) :
    (x.queueStart id env).2 < 0 ↔
      (x.startAlloc id env).2 < 0 ∨ ∃ valid, env.ctx = .fail valid := by
  obtain ⟨y, -, -, hfin⟩ := queueStart_finish h
  rw [← startProgHw_neg_iff (x.startAlloc id env).1, hfin]
  simp only
  split_ifs with hneg
  · exact iff_of_true hneg hneg
  · exact iff_of_false (lt_irrefl 0) hneg

/-- Once it is taken over. -/
theorem takesBack_iff {x : QdmaDev} {id : ℕ} {env : StartEnv} (h : ¬ x.StartRefused id env)
    (hrv : (x.queueStart id env).2 < 0) :
    x.TakesBack id env ↔
      ((x.startAlloc id env).2 < 0 ∨ x.numVecs = 0 ∨ x.intrCoalEn = true) := by
  obtain ⟨csr, hcsr, hen, hon, hconf, hbufs, -⟩ := startAlloc_spec h
  have hneg := (startProgHw_neg_iff (x.startAlloc id env).1 _ env).mpr
    ((queueStart_neg_iff h).mp hrv)
  obtain ⟨hback, hbconf⟩ := startProgHw_back hen hon hbufs hneg
  obtain ⟨y, ⟨cnt, hcnt⟩, hvecs, hfin⟩ := queueStart_finish h
  simp only [if_pos hneg] at hfin
  rw [← hvecs]
  constructor
  · intro hall
    have hlist := hall.intrListCnt
    rwa [hfin] at hlist
  · intro hlist
    refine ⟨?_, ⟨csr, hcsr, ?_⟩, fun id' hne => ?_, ?_, ?_, ?_, ?_, ?_⟩
    · rw [hfin, setDescq_self]
      exact hback
    · rw [hfin, setDescq_self, hbconf, hconf]
    · rw [hfin, setDescq_of_ne _ _ hne, hcnt]
      exact setDescq_of_ne x _ hne
    · rw [hfin, hcnt]
      rfl
    · rw [hfin, hcnt]
      rfl
    · rw [hfin, hcnt]
      rfl
    · rw [hfin]
      exact hlist
    · exact (startLocks_iff x id env).mpr (fun _ => by rw [hcsr]; exact Option.some_ne_none csr)

/-- **A rejected start changes nothing**, and a failed one gives all back, just when it leaves by a
safe exit. -/
theorem start_rejected_iff (x : QdmaDev) (id : ℕ) (env : StartEnv) :
    ((x.StartRefused id env → x.LeavesAll id env) ∧
      (¬ x.StartRefused id env → (x.queueStart id env).2 < 0 → x.TakesBack id env)) ↔
    x.StartSafe id env := by
  by_cases h : x.StartRefused id env
  · have hiff := leavesAll_iff h
    constructor
    · rintro ⟨hall, -⟩
      refine ⟨fun hhas => ?_, fun _ _ hno => absurd h hno⟩
      obtain ⟨csr, hcsr, hconf⟩ := hiff.mp (hall h) hhas
      exact ⟨csr, hcsr, fun _ => hconf⟩
    · intro hsafe
      refine ⟨fun _ => hiff.mpr (fun hhas => ?_), fun hno => absurd h hno⟩
      obtain ⟨csr, hcsr, hconf⟩ := hsafe.before hhas
      refine ⟨csr, hcsr, hconf ((h hhas).resolve_left ?_)⟩
      rw [hcsr]
      exact Option.some_ne_none csr
  · obtain ⟨csr, hcsr, -, -, -, -, hfails⟩ := startAlloc_spec h
    constructor
    · rintro ⟨-, hback⟩
      refine ⟨fun _ => ⟨csr, hcsr, fun huse => absurd (fun _ => .inr huse) h⟩, ?_⟩
      intro csr' valid _ hcsr' hsucc hctx
      obtain rfl : csr = csr' := Option.some.inj (hcsr.symm.trans hcsr')
      have hrv := (queueStart_neg_iff h).mpr (.inr ⟨valid, hctx⟩)
      exact ((takesBack_iff h hrv).mp (hback h hrv)).resolve_left (fun hno => hfails.mp hno hsucc)
    · intro hsafe
      refine ⟨fun hyes => absurd hyes h, fun _ hrv => (takesBack_iff h hrv).mpr ?_⟩
      rcases (queueStart_neg_iff h).mp hrv with hno | ⟨valid, hctx⟩
      · exact .inl hno
      · by_cases hno : (x.startAlloc id env).2 < 0
        · exact .inl hno
        · exact .inr (hsafe.after csr valid h hcsr (not_not.mp (fun h => hno (hfails.mpr h))) hctx)

/-- A queue that is running, with one request handed to the device, on a device in polled mode. -/
def busyDev : QdmaDev :=
  (pairDev 0).setDescq 0 ([Label.submit (writeReq 8) true, .worker].foldl Sys.step
    (startedSys false 4)).q

/-- Started once more, the queue loses its place in the ring, with the request still there. -/
theorem second_start_resets :
    ¬ ∀ (x : QdmaDev) (id : ℕ) (env : StartEnv), (x.queueStart id env).2 < 0 →
      x.StartRefused id env → x.LeavesAll id env := by
  intro h
  have hall := h busyDev 0 (goodStart (csrOf 4)) (by decide +kernel)
    (fun _ => .inr (.inl (by decide +kernel)))
  have hpidx : ((busyDev.queueStart 0 (goodStart (csrOf 4))).1.descq 0).pidx = 0 := by
    decide +kernel
  rw [hall.dev] at hpidx
  exact absurd hpidx (by decide +kernel)

end Qdma
