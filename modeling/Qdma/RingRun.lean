/-
# Runs of a memory-mapped or ST H2C queue

One queue from its start on: callers submit requests and wait for them, the worker
thread makes passes, the device reports its consumer index and the writeback thread
picks it up.  Every step is one lock-protected section of the code, in any order.

`RingInv` is the law of the descriptor ring; `ringInv_run` carries it through every
run and `ring_accounting` states what it means for the ring.
-/
import Qdma.FillSpec
import Qdma.Exec

namespace Qdma

open RingIndex Exec

/-! ## The system -/

/-- A call of `qdma_request_submit` that has returned, with the owners of the descriptors
between `cidx` and `pidx` at that moment. -/
structure Returned where
  id : ℕ
  rv : ℤ
  held : List (Option ℕ)

/-- A queue with its callers: the number of requests so far (the next identity) and what
they ask for, those that were put on `work_list`, and the blocking calls still waiting. -/
structure Sys where
  q : Descq
  nreq : ℕ := 0
  submitted : List Request := []
  queued : List ℕ := []
  waiters : List ℕ := []
  returned : List Returned := []

/-- The steps of a run. -/
inductive Label where
  | submit (req : Request) (mapped : Bool)
  | worker
  | hw (cidx : ℕ)
  | wb
  | wait (id : ℕ)

/-- The call for request `id` returns `rv`. -/
def Sys.ret (s : Sys) (id : ℕ) (rv : ℤ) : Sys :=
  { s with returned := s.returned ++ [{ id := id, rv := rv, held := s.q.held }] }

/-- `qdma_request_submit` up to its wait: a blocking caller goes to sleep, every other
call returns. -/
def Sys.submit (s : Sys) (req : Request) (mapped : Bool) : Sys :=
  let id := s.nreq
  let (q, rv) := qdmaRequestSubmit s.q id req mapped
  let s := { s with q := q, nreq := id + 1, submitted := s.submitted ++ [req] }
  match rv with
  | some rv => s.ret id rv
  | none =>
      let s := { s with queued := s.queued ++ [id] }
      if req.fpDone then s.ret id 0 else { s with waiters := s.waiters ++ [id] }

/-- The device writes its consumer index to the writeback status. -/
def Sys.hw (s : Sys) (cidx : ℕ) : Sys :=
  { s with q := { s.q with desc := { s.q.desc with wbCidx := cidx } } }

/-- The end of a wait, and with it of the call. -/
def Sys.wait (s : Sys) (id : ℕ) : Sys :=
  let (q, rv) := qdmaRequestWaitForCmpl s.q id
  { s with q := q, waiters := s.waiters.filter (· ≠ id) }.ret id rv

/-- One step of the system. -/
def Sys.step (s : Sys) : Label → Sys
  | .submit req mapped => s.submit req mapped
  | .worker => { s with q := qdmaThreadWrkProc s.q }
  | .hw cidx => s.hw cidx
  | .wb => { s with q := descqMmNH2cWb s.q }
  | .wait id => s.wait id

/-- The device reports positions between the one it reported last and `pidx`; only a
sleeping caller stops waiting. -/
def Legal (s : Sys) : Label → Prop
  | .hw c => c < s.q.conf.rngsz ∧
      dist s.q.conf.rngsz s.q.desc.wbCidx c ≤ dist s.q.conf.rngsz s.q.desc.wbCidx s.q.pidx
  | .wait id => id ∈ s.waiters
  | _ => True

instance (s : Sys) (l : Label) : Decidable (Legal s l) := by
  cases l <;> unfold Legal <;> infer_instance

/-! ## The ring invariant -/

/-- **The law of the descriptor ring.** -/
structure RingInv (q : Descq) : Prop where
  kind : (q.conf.st && q.conf.c2h) = false
  one_le : 1 ≤ q.conf.rngsz
  le_max : q.conf.rngsz ≤ 65535
  pidx_lt : q.pidx < q.conf.rngsz
  cidx_lt : q.cidx < q.conf.rngsz
  wb_lt : q.desc.wbCidx < q.conf.rngsz
  avail : q.avail + dist q.conf.rngsz q.cidx q.pidx = q.conf.rngsz - 1
  wb_le : dist q.conf.rngsz q.cidx q.desc.wbCidx ≤ dist q.conf.rngsz q.cidx q.pidx
  rung : q.regs.pidx = q.pidx
  inflight : ∃ pre, q.regs.handed = pre ++ stretch q.conf.rngsz q.desc.slot q.cidx q.pidx

/-- The parts of a queue the ring law speaks about. -/
structure SameRing (q q' : Descq) : Prop where
  conf : q'.conf = q.conf
  pidx : q'.pidx = q.pidx
  cidx : q'.cidx = q.cidx
  avail : q'.avail = q.avail
  desc : q'.desc = q.desc
  regs : q'.regs = q.regs

theorem SameRing.refl (q : Descq) : SameRing q q := ⟨rfl, rfl, rfl, rfl, rfl, rfl⟩

theorem SameRing.trans {a b c : Descq} (h : SameRing a b) (h' : SameRing b c) :
    SameRing a c :=
  ⟨h'.conf.trans h.conf, h'.pidx.trans h.pidx, h'.cidx.trans h.cidx,
    h'.avail.trans h.avail, h'.desc.trans h.desc, h'.regs.trans h.regs⟩

/-- What leaves the ring alone keeps its law. -/
theorem RingInv.congr {q q' : Descq} (h : RingInv q) (hs : SameRing q q') : RingInv q' := by
  obtain ⟨h1, h2, h3, h4, h5, h6, h7, h8, h9, h10⟩ := h
  obtain ⟨hc, hp, hci, ha, hd, hr⟩ := hs
  constructor <;> simp only [hc, hp, hci, ha, hd, hr] <;> assumption

/-! ## A worker pass -/

/-- The body of the loop of `qdma_thread_wrk_proc`. -/
def wrkProcOne (d : Descq) (cb : SgtReqCb) : Descq :=
  if (qdmaDescqProcSgtRequest d cb).2 < 0 then
    qdmaSgtReqDone (qdmaDescqProcSgtRequest d cb).1 cb (qdmaDescqProcSgtRequest d cb).2
  else (qdmaDescqProcSgtRequest d cb).1

theorem wrkProcLoop_cons (cb : SgtReqCb) (cbs : List SgtReqCb) (d : Descq) :
    wrkProcLoop (cb :: cbs) d
      = if (wrkProcOne d cb).avail = 0 then wrkProcOne d cb
        else wrkProcLoop cbs (wrkProcOne d cb) := rfl

theorem sameRing_done (d : Descq) (cb : SgtReqCb) (rv : ℤ) :
    SameRing d (qdmaSgtReqDone d cb rv) := ⟨rfl, rfl, rfl, rfl, rfl, rfl⟩

/-- `chargeRequest` takes the descriptors off `avail`; otherwise it works on the lists. -/
theorem chargeRequest_frame (d : Descq) (cb : SgtReqCb) (n b : ℕ) :
    SameRing { d with avail := d.avail - n } (chargeRequest d cb n b) := by
  unfold chargeRequest
  simp only
  split_ifs <;> exact ⟨rfl, rfl, rfl, rfl, rfl, rfl⟩

/-- `q'` is `q` with `k` further descriptors in flight and those before them untouched. -/
structure Extends (q q' : Descq) (k : ℕ) : Prop where
  conf : q'.conf = q.conf
  cidx : q'.cidx = q.cidx
  wbCidx : q'.desc.wbCidx = q.desc.wbCidx
  pidx : q'.pidx = adv q.conf.rngsz q.pidx k
  avail : q'.avail + k = q.avail
  handed : q'.regs.handed = q.regs.handed
    ++ stretch q.conf.rngsz q'.desc.slot q.pidx q'.pidx
  rung : q'.regs.pidx = q'.pidx
  inflight : stretch q.conf.rngsz q'.desc.slot q.cidx q.pidx
    = stretch q.conf.rngsz q.desc.slot q.cidx q.pidx

theorem SameRing.extends {q q' : Descq} (hs : SameRing q q') (h : RingInv q) :
    Extends q q' 0 := by
  obtain ⟨hc, hp, hci, ha, hd, hr⟩ := hs
  refine ⟨hc, hci, by rw [hd], ?_, ha, ?_, ?_, by rw [hd]⟩
  · rw [hp, adv_zero h.pidx_lt]
  · rw [hp, stretch_self, List.append_nil, hr]
  · rw [hr, hp, h.rung]

/-- The distance between the ends grows by what was posted. -/
theorem Extends.dist {q q' : Descq} {k : ℕ} (h : RingInv q) (he : Extends q q' k) :
    dist q'.conf.rngsz q'.cidx q'.pidx = dist q.conf.rngsz q.cidx q.pidx + k := by
  have ha := h.avail
  have hk := he.avail
  have h2 := h.one_le
  rw [he.conf, he.cidx, he.pidx]
  exact dist_adv_right h.cidx_lt h.pidx_lt (by omega)

/-- What is in flight afterwards: what was, then what was posted. -/
theorem Extends.stretch {q q' : Descq} {k : ℕ} (h : RingInv q) (he : Extends q q' k) :
    stretch q'.conf.rngsz q'.desc.slot q'.cidx q'.pidx
      = stretch q.conf.rngsz q.desc.slot q.cidx q.pidx
        ++ stretch q.conf.rngsz q'.desc.slot q.pidx q'.pidx := by
  have ha := h.avail
  have hk := he.avail
  have h2 := h.one_le
  rw [he.conf, he.cidx, he.pidx, stretch_adv_right _ h.cidx_lt h.pidx_lt (by omega),
    he.inflight]

theorem RingInv.extends {q q' : Descq} {k : ℕ} (h : RingInv q) (he : Extends q q' k) :
    RingInv q' := by
  have hd := he.dist h
  have ha := h.avail
  have hk := he.avail
  have hwb := h.wb_le
  obtain ⟨pre, hpre⟩ := h.inflight
  have hlt : adv q.conf.rngsz q.pidx k < q.conf.rngsz := adv_lt (by have := h.one_le; omega)
  refine ⟨?_, ?_, ?_, ?_, ?_, ?_, ?_, ?_, he.rung, pre, ?_⟩
  · rw [he.conf]
    exact h.kind
  · rw [he.conf]
    exact h.one_le
  · rw [he.conf]
    exact h.le_max
  · rw [he.conf, he.pidx]
    exact hlt
  · rw [he.conf, he.cidx]
    exact h.cidx_lt
  · rw [he.conf, he.wbCidx]
    exact h.wb_lt
  · rw [hd, he.conf]
    omega
  · rw [hd, he.conf, he.cidx, he.wbCidx]
    omega
  · rw [he.stretch h, he.handed, hpre, List.append_assoc]

theorem Extends.trans {a b c : Descq} {k l : ℕ} (ha : RingInv a) (h : Extends a b k)
    (h' : Extends b c l) : Extends a c (k + l) := by
  have hb := ha.extends h
  have hal := ha.avail
  have h2 := ha.one_le
  have hk := h.avail
  have hl := h'.avail
  have hdk : RingIndex.dist a.conf.rngsz a.pidx (adv a.conf.rngsz a.pidx k) = k :=
    dist_adv ha.pidx_lt (by omega)
  have hstr := h'.stretch hb
  have hin := h'.inflight
  rw [h.conf] at hin
  -- the slots posted first are among those in flight when the others are posted
  have hmid : RingIndex.stretch a.conf.rngsz c.desc.slot a.pidx b.pidx
      = RingIndex.stretch a.conf.rngsz b.desc.slot a.pidx b.pidx := by
    have hdist := h.dist ha
    have hcut : ∀ slot : ℕ → Desc, RingIndex.stretch a.conf.rngsz slot a.pidx b.pidx
        = (RingIndex.stretch a.conf.rngsz slot b.cidx b.pidx).drop
            (RingIndex.dist a.conf.rngsz a.cidx a.pidx) := by
      intro slot
      rw [h.conf] at hdist
      rw [← stretch_adv_left slot (by rw [h.cidx]; exact ha.cidx_lt)
        (by rw [h.pidx]; exact adv_lt (by omega)) (by omega), h.cidx,
        adv_dist ha.cidx_lt ha.pidx_lt]
    rw [hcut, hcut, hin]
  refine ⟨h'.conf.trans h.conf, h'.cidx.trans h.cidx, h'.wbCidx.trans h.wbCidx, ?_, ?_, ?_,
    h'.rung, ?_⟩
  · rw [h'.pidx, h.conf, h.pidx, adv_adv]
  · omega
  · rw [h'.handed, h.handed, List.append_assoc, ← hmid, h'.pidx, h.conf, h.pidx,
      stretch_adv_right _ ha.pidx_lt (adv_lt (by omega)) (by omega)]
  · have hcut : ∀ slot : ℕ → Desc, RingIndex.stretch a.conf.rngsz slot a.cidx a.pidx
        = (RingIndex.stretch a.conf.rngsz slot a.cidx b.pidx).take
            (RingIndex.dist a.conf.rngsz a.cidx a.pidx) := by
      intro slot
      rw [h.pidx, stretch_adv_right _ ha.cidx_lt ha.pidx_lt (by omega), List.take_left']
      rw [length_stretch]
    rw [hcut c.desc.slot, ← h.cidx, hin, h.cidx, ← hcut, h.inflight]

/-- Posting descriptors and taking them off `avail` extends the ring. -/
theorem Posted.extends {q d' q' : Descq} {cb : SgtReqCb} {ps : List Piece} (h : RingInv q)
    (hp : Posted q d' cb ps) (hlen : ps.length ≤ q.avail)
    (hs : SameRing { d' with avail := d'.avail - ps.length } q') :
    Extends q q' ps.length := by
  have h2 := h.one_le
  have ha := h.avail
  have hfr := hp.frame
  obtain ⟨hconf, hpidx, hcidx, havail, hdesc, hregs⟩ := hs
  simp only at hconf hpidx hcidx havail hdesc hregs
  refine ⟨?_, ?_, ?_, hpidx.trans hp.pidx, ?_, ?_, ?_, ?_⟩
  · rw [hconf, hfr]
    rfl
  · rw [hcidx, hfr]
    rfl
  · rw [hdesc, hfr]
    rfl
  · have hsame : d'.avail = q.avail := by
      rw [hfr]
      rfl
    omega
  · rw [hregs, hdesc, hpidx]
    conv_lhs => rw [hfr]
    rw [← h.rung]
    rfl
  · rw [hregs, hpidx]
    conv_lhs => rw [hfr]
    rfl
  · rw [hdesc]
    refine stretch_congr (fun j hj => ?_)
    rw [adv_between h.cidx_lt h.pidx_lt]
    exact hp.old _ (by omega) (by omega) (by omega)

/-- One round of the worker's loop posts descriptors at the end and touches no others. -/
theorem wrkProcOne_extends {q : Descq} (h : RingInv q) (cb : SgtReqCb) :
    ∃ k, Extends q (wrkProcOne q cb) k := by
  have h2 := h.one_le
  have ha := h.avail
  have hout := procSgtRequest_outcome cb h.kind h.pidx_lt (by omega) h.rung
  unfold wrkProcOne
  generalize qdmaDescqProcSgtRequest q cb = r at hout
  cases hout with
  | full _ => exact ⟨0, (SameRing.refl q).extends h⟩
  | failed _ hrv _ =>
      rw [if_pos hrv]
      exact ⟨0, (sameRing_done q cb _).extends h⟩
  | @posted _ _ _ ps _ _ hps hp =>
      rw [if_neg (show ¬ (0 : ℤ) < 0 by decide)]
      refine ⟨ps.length, hp.extends h ?_ (chargeRequest_frame _ _ _ _)⟩
      rw [hps, List.length_take]
      omega

theorem wrkProcLoop_extends {q : Descq} (h : RingInv q) (cbs : List SgtReqCb) :
    ∃ k, Extends q (wrkProcLoop cbs q) k := by
  induction cbs generalizing q with
  | nil => exact ⟨0, (SameRing.refl q).extends h⟩
  | cons cb cbs ih =>
      obtain ⟨k, hk⟩ := wrkProcOne_extends h cb
      rw [wrkProcLoop_cons]
      split_ifs
      · exact ⟨k, hk⟩
      · obtain ⟨l, hl⟩ := ih (h.extends hk)
        exact ⟨k + l, hk.trans h hl⟩

/-- **A worker pass only adds to the ring.** -/
theorem wrkProc_extends {q : Descq} (h : RingInv q) : ∃ k, Extends q (qdmaThreadWrkProc q) k :=
  wrkProcLoop_extends h q.workList

/-! ## A writeback -/

theorem sameRing_reqUpdatePendLoop (cbs : List SgtReqCb) (credit : ℕ) (d : Descq) :
    SameRing d (reqUpdatePendLoop cbs credit d).1 := by
  induction cbs generalizing credit d with
  | nil => exact SameRing.refl d
  | cons cb cbs ih =>
      rw [reqUpdatePendLoop]
      by_cases h : credit ≥ cb.descNr
      · simp only [h, if_true]
        split_ifs
        · exact sameRing_done d cb 0
        · exact (sameRing_done d cb 0).trans (ih _ _)
      · simp only [h, if_false, if_true]
        exact ⟨rfl, rfl, rfl, rfl, rfl, rfl⟩

theorem sameRing_reqUpdatePend (d : Descq) (credit : ℕ) :
    SameRing d (reqUpdatePend d credit) :=
  (sameRing_reqUpdatePendLoop d.pendList (u32 (credit + d.credit)) d).trans
    ⟨rfl, rfl, rfl, rfl, rfl, rfl⟩

/-- Ringing again at the same position changes nothing. -/
theorem pidxUpdate_self {d : Descq} (h : d.regs.pidx = d.pidx) : d.pidxUpdate d.pidx = d := by
  rw [pidxUpdate_eq, ← h, regs_ring_self]
  rw [h]
  rfl

/-- The descriptors newly reported as consumed. -/
def Descq.reported (q : Descq) : ℕ := dist q.conf.rngsz q.cidx q.desc.wbCidx

/-- The queue once `cidx` has caught up with the device. -/
def Descq.caughtUp (q : Descq) : Descq :=
  { q with cidx := q.desc.wbCidx, avail := q.avail + q.reported }

/-- A writeback that finds a new index takes it over and settles the requests. -/
theorem descqMmNH2cWb_takes {q : Descq} (hlt : q.cidx < q.conf.rngsz)
    (hwb : q.desc.wbCidx < q.conf.rngsz) (hrung : q.regs.pidx = q.pidx) (he : q.pidx ≠ q.cidx)
    (hc : q.desc.wbCidx ≠ q.cidx) : descqMmNH2cWb q = reqUpdatePend q.caughtUp q.reported := by
  have hcr : descqWbCredit q q.desc.wbCidx = (q.caughtUp, q.reported) := by
    unfold descqWbCredit Descq.caughtUp Descq.reported
    rw [if_neg hc, dist_eq hlt hwb]
    by_cases hw : q.desc.wbCidx < q.cidx
    · rw [if_neg (show ¬ q.cidx ≤ q.desc.wbCidx by omega),
        show q.desc.wbCidx + q.conf.rngsz - q.cidx
          = q.conf.rngsz - q.cidx + q.desc.wbCidx from by omega]
      simp only [hw, if_true]
    · rw [if_pos (show q.cidx ≤ q.desc.wbCidx by omega)]
      simp only [hw, if_false]
  rw [descqMmNH2cWb, if_neg he]
  simp only [hc, if_false, hcr, descqC2hPidxUpdate, descqH2cPidxUpdate, ite_self]
  refine pidxUpdate_self ?_
  have hsame := sameRing_reqUpdatePend q.caughtUp q.reported
  rw [hsame.regs, hsame.pidx]
  exact hrung

/-- What a writeback does: nothing if nothing was consumed, else it takes over the index
and settles the requests. -/
theorem descqMmNH2cWb_cases {q : Descq} (h : RingInv q) :
    (q.reported = 0 ∧ descqMmNH2cWb q = q) ∨
    (0 < q.reported ∧ descqMmNH2cWb q = reqUpdatePend q.caughtUp q.reported) := by
  have hzero := dist_eq_zero h.cidx_lt h.wb_lt
  have hwb := h.wb_le
  by_cases he : q.pidx = q.cidx
  · rw [he, dist_self] at hwb
    exact .inl ⟨by unfold Descq.reported; omega, by rw [descqMmNH2cWb, if_pos he]⟩
  by_cases hc : q.desc.wbCidx = q.cidx
  · refine .inl ⟨hzero.mpr hc.symm, ?_⟩
    rw [descqMmNH2cWb, if_neg he]
    simp only [hc, if_true]
  · refine .inr ⟨?_, descqMmNH2cWb_takes h.cidx_lt h.wb_lt h.rung he hc⟩
    have : ¬ dist q.conf.rngsz q.cidx q.desc.wbCidx = 0 := fun h0 => hc (hzero.mp h0).symm
    unfold Descq.reported
    omega

theorem RingInv.caughtUp {q : Descq} (h : RingInv q) : RingInv q.caughtUp := by
  obtain ⟨pre, hpre⟩ := h.inflight
  have hwb := h.wb_le
  have havail := h.avail
  have hdist : dist q.conf.rngsz q.desc.wbCidx q.pidx
      = dist q.conf.rngsz q.cidx q.pidx - q.reported :=
    dist_add_dist h.cidx_lt h.wb_lt h.pidx_lt hwb
  refine ⟨h.kind, h.one_le, h.le_max, h.pidx_lt, h.wb_lt, h.wb_lt, ?_, ?_, h.rung, ?_⟩
  · show q.avail + q.reported + dist q.conf.rngsz q.desc.wbCidx q.pidx = q.conf.rngsz - 1
    unfold Descq.reported at *
    omega
  · show dist q.conf.rngsz q.desc.wbCidx q.desc.wbCidx ≤ _
    rw [dist_self]
    exact Nat.zero_le _
  · refine ⟨pre ++ (stretch q.conf.rngsz q.desc.slot q.cidx q.pidx).take q.reported, ?_⟩
    show q.regs.handed = _ ++ stretch q.conf.rngsz q.desc.slot q.desc.wbCidx q.pidx
    have hcut := stretch_adv_left q.desc.slot h.cidx_lt h.pidx_lt hwb
    rw [adv_dist h.cidx_lt h.wb_lt] at hcut
    rw [hcut, List.append_assoc]
    exact hpre.trans (congrArg _ (List.take_append_drop _ _).symm)

/-- What is held afterwards: what was, less what was reported. -/
theorem caughtUp_held {q : Descq} (h : RingInv q) :
    q.caughtUp.held = q.held.drop q.reported := by
  have hcut := stretch_adv_left (fun i => (q.desc.slot i).owner) h.cidx_lt h.pidx_lt h.wb_le
  rwa [adv_dist h.cidx_lt h.wb_lt] at hcut

/-! ## Every step -/

theorem RingInv.wb {q : Descq} (h : RingInv q) : RingInv (descqMmNH2cWb q) := by
  rcases descqMmNH2cWb_cases h with ⟨_, heq⟩ | ⟨_, heq⟩
  · rwa [heq]
  · rw [heq]
    exact h.caughtUp.congr (sameRing_reqUpdatePend _ _)

theorem sameRing_submit (q : Descq) (id : ℕ) (req : Request) (mapped : Bool) :
    SameRing q (qdmaRequestSubmit q id req mapped).1 := by
  unfold qdmaRequestSubmit
  split_ifs <;> exact ⟨rfl, rfl, rfl, rfl, rfl, rfl⟩

theorem sameRing_wait (q : Descq) (id : ℕ) :
    SameRing q (qdmaRequestWaitForCmpl q id).1 := by
  unfold qdmaRequestWaitForCmpl
  split <;> exact ⟨rfl, rfl, rfl, rfl, rfl, rfl⟩

/-- What `submit` does to the queue is the call's. -/
theorem submit_q (s : Sys) (req : Request) (mapped : Bool) :
    (s.submit req mapped).q = (qdmaRequestSubmit s.q s.nreq req mapped).1 := by
  unfold Sys.submit
  simp only
  split
  · rfl
  · split_ifs <;> rfl

/-- The call leaves the queue alone or puts its request on `work_list`. -/
theorem requestSubmit_cases (q : Descq) (id : ℕ) (req : Request) (mapped : Bool) :
    (∃ rv, qdmaRequestSubmit q id req mapped = (q, some rv)) ∨
      qdmaRequestSubmit q id req mapped = (q.enqueue (req.newCb id), none) := by
  unfold qdmaRequestSubmit
  split_ifs
  · exact .inl ⟨_, rfl⟩
  · exact .inl ⟨_, rfl⟩
  · exact .inl ⟨_, rfl⟩
  · exact .inr rfl

/-- What a submission can do: it is refused at once, or its request joins `work_list`. -/
theorem submit_cases (s : Sys) (req : Request) (mapped : Bool) :
    (∃ rv, s.submit req mapped = Sys.ret
        { s with nreq := s.nreq + 1, submitted := s.submitted ++ [req] } s.nreq rv) ∨
    ∃ w r, s.submit req mapped =
        { q := s.q.enqueue (req.newCb s.nreq), nreq := s.nreq + 1
          submitted := s.submitted ++ [req]
          queued := s.queued ++ [s.nreq], waiters := w, returned := r } ∧
      (r = s.returned ∨
        r = s.returned ++ [{ id := s.nreq, rv := 0, held := s.q.held }]) := by
  unfold Sys.submit
  rcases requestSubmit_cases s.q s.nreq req mapped with ⟨rv, heq⟩ | heq
  · simp only [heq]
    exact .inl ⟨rv, rfl⟩
  · simp only [heq]
    by_cases h : req.fpDone = true
    · simp only [h, if_true]
      exact .inr ⟨_, _, rfl, .inr rfl⟩
    · simp only [h, Bool.false_eq_true, if_false]
      exact .inr ⟨_, _, rfl, .inl rfl⟩

theorem RingInv.hw {s : Sys} {c : ℕ} (h : RingInv s.q) (hok : Legal s (.hw c)) :
    RingInv (s.hw c).q :=
  { h with
    wb_lt := hok.1
    wb_le := dist_le_dist h.cidx_lt h.wb_lt hok.1 h.pidx_lt h.wb_le hok.2 }

/-- **Every legal step keeps the ring law.** -/
theorem ringInv_step (s : Sys) (l : Label) (h : RingInv s.q) (hok : Legal s l) :
    RingInv (s.step l).q := by
  cases l with
  | submit req mapped =>
      refine h.congr ?_
      rw [Sys.step, submit_q]
      exact sameRing_submit _ _ _ _
  | worker =>
      obtain ⟨k, hk⟩ := wrkProc_extends h
      exact h.extends hk
  | hw c => exact h.hw hok
  | wb => exact h.wb
  | wait id => exact h.congr (sameRing_wait s.q id)

/-- **The ring law holds after every run.** -/
theorem ringInv_run {s₀ s : Sys} {evs : List Label} (h₀ : RingInv s₀.q)
    (hrun : Run Sys.step Legal s₀ evs s) : RingInv s.q :=
  hrun.invariant (I := fun s => RingInv s.q) h₀ ringInv_step

/-! ## From the start of the queue -/

/-- A queue just started satisfies the ring law. -/
theorem ringInv_start {d : Descq} {env : StartEnv} {csr : GlobalCsrConf}
    (hcsr : env.csr = some csr) (h2 : 2 ≤ csr.ringSz d.conf.descRngSzIdx)
    (h64 : csr.ringSz d.conf.descRngSzIdx ≤ 65536)
    (hkind : (d.conf.st && d.conf.c2h) = false) (hok : (descqStart d env).2 = 0) :
    RingInv (descqStart d env).1 := by
  have hsz : (ringConfigComplete d csr).conf.rngsz = csr.ringSz d.conf.descRngSzIdx - 1 :=
    u32Sub_of_le (by omega) (by omega)
  have havail : (ringConfigComplete d csr).avail
      = (ringConfigComplete d csr).conf.rngsz - 1 :=
    u32Sub_of_le (by show (ringConfigComplete d csr).conf.rngsz < _; omega)
      (by show 1 ≤ (ringConfigComplete d csr).conf.rngsz; omega)
  rw [descqStart_eq hcsr hkind hok]
  refine ⟨hkind, ?_, ?_, ?_, ?_, ?_, ?_, ?_, rfl, [], ?_⟩
  · show 1 ≤ (ringConfigComplete d csr).conf.rngsz
    omega
  · show (ringConfigComplete d csr).conf.rngsz ≤ 65535
    omega
  · show 0 < (ringConfigComplete d csr).conf.rngsz
    omega
  · show 0 < (ringConfigComplete d csr).conf.rngsz
    omega
  · show 0 < (ringConfigComplete d csr).conf.rngsz
    omega
  · show (ringConfigComplete d csr).avail + dist _ 0 0 = (ringConfigComplete d csr).conf.rngsz - 1
    rw [dist_self]
    exact havail
  · exact le_rfl
  · exact (stretch_self _ _ 0).symm

/-- A memory-mapped or ST H2C queue right after its first start. -/
def Started (q : Descq) : Prop :=
  ∃ d env csr, env.csr = some csr ∧ 2 ≤ csr.ringSz d.conf.descRngSzIdx ∧
    csr.ringSz d.conf.descRngSzIdx ≤ 65536 ∧ (d.conf.st && d.conf.c2h) = false ∧
    d.workList = [] ∧ d.pendList = [] ∧ d.finished = [] ∧ descqStart d env = (q, 0)

/-- What is known of such a queue. -/
theorem Started.spec {q : Descq} (h : Started q) :
    RingInv q ∧ q.workList = [] ∧ q.pendList = [] ∧ q.finished = [] ∧ q.credit = 0 ∧
      q.regs.handed = [] ∧ q.cidx = q.pidx ∧ ∀ i, q.desc.slot i = {} := by
  obtain ⟨d, env, csr, hcsr, h2, h64, hkind, hw, hp, hf, heq⟩ := h
  have hok : (descqStart d env).2 = 0 := by rw [heq]
  have hq : (descqStart d env).1 = q := by rw [heq]
  have hring := ringInv_start hcsr h2 h64 hkind hok
  rw [hq] at hring
  rw [descqStart_eq hcsr hkind hok] at hq
  subst hq
  exact ⟨hring, hw, hp, hf, rfl, rfl, rfl, fun _ => rfl⟩

/-- **Ring accounting.**  After any run of a freshly started queue both indices are on
the ring and `avail` is what they leave free; a worker pass leaves every descriptor the
device has yet to consume as it is, and the distance from `cidx` to `pidx` grows by
exactly the descriptors it hands over, so `pidx` does not come round to `cidx`. -/
theorem ring_accounting {d : Descq} {env : StartEnv} {csr : GlobalCsrConf}
    (hcsr : env.csr = some csr) (h2 : 2 ≤ csr.ringSz d.conf.descRngSzIdx)
    (h64 : csr.ringSz d.conf.descRngSzIdx ≤ 65536)
    (hkind : (d.conf.st && d.conf.c2h) = false) (hok : (descqStart d env).2 = 0)
    {evs : List Label} {s : Sys}
    (hrun : Run Sys.step Legal { q := (descqStart d env).1 } evs s) :
    s.q.pidx < s.q.conf.rngsz ∧ s.q.cidx < s.q.conf.rngsz ∧
    s.q.avail + (s.q.pidx + s.q.conf.rngsz - s.q.cidx) % s.q.conf.rngsz
      = s.q.conf.rngsz - 1 ∧
    (∀ j < dist s.q.conf.rngsz s.q.cidx s.q.pidx,
      (qdmaThreadWrkProc s.q).desc.slot (adv s.q.conf.rngsz s.q.cidx j)
        = s.q.desc.slot (adv s.q.conf.rngsz s.q.cidx j)) ∧
    dist s.q.conf.rngsz s.q.cidx (qdmaThreadWrkProc s.q).pidx
        + s.q.regs.handed.length
      = dist s.q.conf.rngsz s.q.cidx s.q.pidx
        + (qdmaThreadWrkProc s.q).regs.handed.length ∧
    (s.q.pidx ≠ s.q.cidx →
      (qdmaThreadWrkProc s.q).pidx ≠ (qdmaThreadWrkProc s.q).cidx) := by
  have h := ringInv_run (ringInv_start hcsr h2 h64 hkind hok) hrun
  obtain ⟨k, hk⟩ := wrkProc_extends h
  have hdist := hk.dist h
  rw [hk.conf, hk.cidx] at hdist
  refine ⟨h.pidx_lt, h.cidx_lt, h.avail, ?_, ?_, ?_⟩
  · intro j hj
    have hin := hk.inflight
    have hget := congrArg (fun l => l[j]?) hin
    simpa [RingIndex.stretch, hj] using hget
  · have havail := h.avail
    have hleft := hk.avail
    rw [hdist, hk.handed, List.length_append, length_stretch, hk.pidx,
      dist_adv h.pidx_lt (by have := h.one_le; omega)]
    omega
  · intro hne heq
    have hpos : dist s.q.conf.rngsz s.q.cidx s.q.pidx ≠ 0 :=
      fun h0 => hne ((dist_eq_zero h.cidx_lt h.pidx_lt).mp h0).symm
    rw [heq, hk.cidx, dist_self] at hdist
    omega

/-! ## A concrete queue -/

/-- A host-to-card queue as `qdma_queue_add` leaves it. -/
def addedQueue (st : Bool) : Descq := { enabled := true, conf := { st := st } }

/-- CSR tables whose ring sizes are all `n`. -/
def csrOf (n : ℕ) : GlobalCsrConf := { ringSz := fun _ => n, c2hBufSz := fun _ => 4096 }

/-- A start during which nothing fails. -/
def goodStart (csr : GlobalCsrConf) : StartEnv where
  csr := some csr
  alloc :=
    { desc := true, wrb := true, sdesc := true, fill := fun i => .ok (i + 1) (4096 * (i + 1)) }
  irq := none
  ctx := .ok
  ctxCleared := true

/-- The system of a host-to-card queue just started on a ring of CSR size `n`. -/
def startedSys (st : Bool) (n : ℕ) : Sys :=
  { q := (descqStart (addedQueue st) (goodStart (csrOf n))).1 }

theorem started_startedSys (st : Bool) : Started (startedSys st 4).q :=
  ⟨addedQueue st, goodStart (csrOf 4), csrOf 4, rfl, show 2 ≤ 4 by decide,
    show 4 ≤ 65536 by decide, by cases st <;> rfl, rfl, rfl, rfl, by cases st <;> rfl⟩

/-- A blocking write of one entry of `len` bytes. -/
def writeReq (len : UInt32) : Request :=
  { write := true, count := len.toNat, epAddr := 0, dmaMapped := true, fpDone := false
    sgl := [⟨1, 0, len.toNat, 4096⟩], count_lt := len.toNat_lt
    sgcnt_lt := (by decide : 1 < 2 ^ 16) }

/-- Three writes on a ring of three slots, with a wrap in between. -/
theorem ring_accounting_wrap :
    let s := [Label.submit (writeReq 8) true, .submit (writeReq 8) true, .worker, .hw 2, .wb,
      .submit (writeReq 8) true, .submit (writeReq 8) true, .worker].foldl Sys.step
        (startedSys false 4)
    s.q.pidx = 1 ∧ s.q.cidx = 2 ∧
      s.q.avail + (s.q.pidx + s.q.conf.rngsz - s.q.cidx) % s.q.conf.rngsz
        = s.q.conf.rngsz - 1 :=
  ⟨by decide +kernel, by decide +kernel,
    (@ring_accounting (addedQueue false) (goodStart (csrOf 4)) (csrOf 4) rfl (by decide)
      (by decide) rfl (by decide +kernel) _ _ (Run.of_admits _ (by decide +kernel))).2.2.1⟩

end Qdma
