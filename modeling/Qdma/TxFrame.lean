/-
# Frames of the transmit side

What the functions of `qdma_descq.c` leave alone on a memory-mapped or ST H2C queue, once for
every part of a queue, as in `Qdma.RxFrame`: `FillFrame` is for filling descriptors, `TxFrame`
for serving requests and taking writebacks.
-/
import Qdma.H2c

namespace Qdma

/-- `f` reads nothing that filling descriptors writes. -/
structure FillFrame {α : Type*} (f : Descq → α) : Prop where
  put : ∀ d slot pidx, f { d with desc := { d.desc with slot := slot }, pidx := pidx } = f d
  bell : ∀ d r, f { d with regs := r } = f d

/-- `f` reads nothing that serving requests and taking writebacks write. -/
structure TxFrame {α : Type*} (f : Descq → α) : Prop extends FillFrame f where
  avail : ∀ d a, f { d with avail := a } = f d
  queues : ∀ d work pend finished,
    f { d with workList := work, pendList := pend, finished := finished } = f d
  credit : ∀ d cidx credit, f { d with cidx := cidx, credit := credit } = f d

variable {α : Type*} {f : Descq → α}

/-! ## Filling descriptors -/

theorem FillFrame.pidxUpdate (hf : FillFrame f) (d : Descq) (pidx : ℕ) :
    f (d.pidxUpdate pidx) = f d := hf.bell d _

theorem FillFrame.mmFillEntry (hf : FillFrame f) (id room tlen addr : ℕ) (l : Fill) :
    f (mmFillEntry id room tlen addr l).d = f l.d := by
  induction room generalizing tlen addr l with
  | zero => rfl
  | succ room ih =>
      rw [Qdma.mmFillEntry]
      split_ifs
      · rfl
      · exact (ih _ _ _).trans (hf.put l.d _ _)

theorem FillFrame.mmFillSgl (hf : FillFrame f) (id descMax : ℕ) (sgl : List SwSg) (off : ℕ)
    (l : Fill) : f (mmFillSgl id descMax sgl off l).d = f l.d := by
  induction sgl generalizing off l with
  | nil => rfl
  | cons sg sgl ih =>
      rw [Qdma.mmFillSgl]
      split_ifs
      · exact (ih _ _).trans (hf.mmFillEntry _ _ _ _ l)
      · rfl

theorem FillFrame.stFillEntry (hf : FillFrame f) (id : ℕ) (eop : Bool) (room tlen addr : ℕ)
    (l : Fill) : f (stFillEntry id eop room tlen addr l).d = f l.d := by
  induction room generalizing tlen addr l with
  | zero => rfl
  | succ room ih =>
      have hput : f (stPut id eop l (min tlen pageSize) addr).d = f l.d :=
        (hf.pidxUpdate _ _).trans (hf.put l.d _ _)
      rw [Qdma.stFillEntry]
      split_ifs
      · exact hput
      · exact (ih _ _ _).trans hput

theorem FillFrame.stFillSgl (hf : FillFrame f) (id descMax : ℕ) (sgl : List SwSg) (off : ℕ)
    (l : Fill) : f (stFillSgl id descMax sgl off l).d = f l.d := by
  induction sgl generalizing off l with
  | nil => rfl
  | cons sg sgl ih =>
      rw [Qdma.stFillSgl]
      split_ifs
      · exact (ih _ _).trans (hf.stFillEntry _ _ _ _ _ l)
      · rfl

/-! ## Serving requests -/

theorem TxFrame.done (hf : TxFrame f) (d : Descq) (cb : SgtReqCb) (error : ℤ) :
    f (qdmaSgtReqDone d cb error) = f d := hf.queues d _ _ _

theorem TxFrame.setCb (hf : TxFrame f) (d : Descq) (cb : SgtReqCb) : f (d.setCb cb) = f d :=
  hf.queues d _ _ d.finished

theorem TxFrame.charge (hf : TxFrame f) (d : Descq) (cb : SgtReqCb) (n b : ℕ) :
    f (chargeRequest d cb n b) = f d := by
  have hset : f ({ d with avail := d.avail - n }.setCb (cb.charge n b)) = f d :=
    (hf.setCb _ _).trans (hf.avail d _)
  have hsubmitted : ∀ d cb, f (reqSubmitted d cb) = f d := fun d _ => hf.queues d _ _ d.finished
  unfold chargeRequest
  simp only
  split_ifs
  · exact (hsubmitted _ _).trans hset
  · exact hset

theorem TxFrame.mmProc (hf : TxFrame f) (d : Descq) (cb : SgtReqCb) :
    f (descqMmProcRequest d cb).1 = f d := by
  unfold descqMmProcRequest
  simp only
  split_ifs
  · rfl
  · cases resumeAt cb with
    | none => rfl
    | some p =>
        simp only
        have hfill := hf.mmFillSgl cb.id d.avail (cb.req.sgl.drop p.1) p.2
          { d := d, epAddr := u64 (cb.req.epAddr + cb.offset) }
        generalize Qdma.mmFillSgl cb.id d.avail (cb.req.sgl.drop p.1) p.2
          { d := d, epAddr := u64 (cb.req.epAddr + cb.offset) } = l at hfill
        cases l.descEnd with
        | none => exact hfill
        | some descEnd =>
            simp only
            set d1 := (l.d.mmSetFlag descEnd sDescFEop).mmSetFlag d.pidx sDescFSop
            have hflag : f d1 = f d :=
              ((hf.put (l.d.mmSetFlag descEnd sDescFEop) _ _).trans (hf.put l.d _ _)).trans hfill
            have hcharge := (hf.charge d1 cb l.descCnt l.dataCnt).trans hflag
            split_ifs <;> exact (hf.pidxUpdate _ _).trans hcharge

theorem TxFrame.stProc (hf : TxFrame f) (d : Descq) (cb : SgtReqCb) :
    f (descqProcStH2cRequest d cb).1 = f d := by
  unfold descqProcStH2cRequest
  simp only
  by_cases h0 : d.avail = 0
  · rw [if_pos h0]
  · rw [if_neg h0]
    cases resumeAt cb with
    | none => rfl
    | some p =>
        simp only
        refine (hf.charge _ _ _ _).trans ((hf.stFillSgl _ _ _ _ _).trans ?_)
        split_ifs
        · rfl
        · exact hf.put d _ d.pidx

theorem TxFrame.proc (hf : TxFrame f) (d : Descq) (cb : SgtReqCb) :
    f (qdmaDescqProcSgtRequest d cb).1 = f d := by
  unfold qdmaDescqProcSgtRequest
  split_ifs
  · exact hf.mmProc d cb
  · exact hf.stProc d cb
  · rfl

/-- **A worker pass.** -/
theorem TxFrame.wrkProcLoop (hf : TxFrame f) (cbs : List SgtReqCb) (d : Descq) :
    f (wrkProcLoop cbs d) = f d := by
  induction cbs generalizing d with
  | nil => rfl
  | cons cb cbs ih =>
      have hproc := hf.proc d cb
      rw [Qdma.wrkProcLoop]
      simp only
      generalize qdmaDescqProcSgtRequest d cb = p at hproc
      obtain ⟨d1, rv⟩ := p
      simp only at hproc ⊢
      by_cases hrv : rv < 0
      · rw [if_pos hrv]
        have hdone := (hf.done d1 cb rv).trans hproc
        split_ifs
        · exact hdone
        · exact (ih _).trans hdone
      · rw [if_neg hrv]
        split_ifs
        · exact hproc
        · exact (ih _).trans hproc

/-! ## Writebacks -/

theorem TxFrame.reqUpdatePendLoop (hf : TxFrame f) (cbs : List SgtReqCb) (credit : ℕ)
    (d : Descq) : f (reqUpdatePendLoop cbs credit d).1 = f d := by
  induction cbs generalizing credit d with
  | nil => rfl
  | cons cb cbs ih =>
      rw [Qdma.reqUpdatePendLoop]
      by_cases hc : credit ≥ cb.descNr
      · simp only [hc, if_true]
        split_ifs
        · exact hf.done d cb 0
        · exact (ih _ _).trans (hf.done d cb 0)
      · simp only [hc, if_false, if_true]
        exact hf.setCb d _

/-- **A writeback.** -/
theorem TxFrame.wb (hf : TxFrame f) (d : Descq) : f (descqMmNH2cWb d) = f d := by
  have hcr : ∀ cidx, f (descqWbCredit d cidx).1 = f d := by
    intro cidx
    unfold descqWbCredit
    split_ifs
    · rfl
    all_goals exact (hf.avail { d with cidx := cidx } _).trans (hf.credit d _ d.credit)
  have hpend : ∀ (d : Descq) cr, f (reqUpdatePend d cr) = f d :=
    fun d cr => (hf.credit _ _ _).trans (hf.reqUpdatePendLoop d.pendList _ d)
  unfold descqMmNH2cWb
  simp only
  split_ifs
  · rfl
  · rfl
  all_goals exact (hf.pidxUpdate _ _).trans ((hpend _ _).trans (hcr _))

/-! ## Submitting and waiting -/

theorem TxFrame.submit (hf : TxFrame f) (d : Descq) (id : ℕ) (req : Request) (mapped : Bool) :
    f (qdmaRequestSubmit d id req mapped).1 = f d := by
  unfold qdmaRequestSubmit
  split_ifs
  · rfl
  · rfl
  · rfl
  · exact hf.queues d _ d.pendList d.finished

theorem TxFrame.wait (hf : TxFrame f) (d : Descq) (id : ℕ) :
    f (qdmaRequestWaitForCmpl d id).1 = f d := by
  unfold qdmaRequestWaitForCmpl
  cases d.doneCb id with
  | none => exact hf.queues d _ _ d.finished
  | some cb => rfl

end Qdma
