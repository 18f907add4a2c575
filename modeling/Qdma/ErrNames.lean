/-
# The names of the induced errors

An error has three numbers: its place in `enum qdma_err_idx`, whose bit the data path tests, its
place in the table of names `qdma_err_str`, and the bit of the two words that `read_qparm` sets for
that place.  `induced_iff` says when a list of names changes the errors that it names.
-/
import Qdma.Types

namespace Qdma

/-! ## The two lists of names -/

/-- `enum qdma_err_idx`, in its order. -/
inductive QdmaErrIdx where
  | errRamSbe
  | errRamDbe
  | errDsc
  | errTrq
  | errH2cMm0
  | errH2cMm1
  | errC2hMm0
  | errC2hMm1
  | errC2hSt
  | indCtxtCmdErr
  | errBdg
  | errH2cSt
  | poison
  | urCa
  | param
  | addr
  | tag
  | flr
  | timeout
  | datPoison
  | flrCancel
  | dma
  | dsc
  | rqCancel
  | dbe
  | sbe
  | unmapped
  | qidRange
  | vfAccessErr
  | tcpTimeout
  | mtyMismatch
  | lenMismatch
  | qidMismatch
  | descRspErr
  | engWplDataParErr
  | msiIntFail
  | errDescCnt
  | portidCtxtMismatch
  | portidBypInMismatch
  | wrbInvQErr
  | wrbQfullErr
  | fatalMtyMismatch
  | fatalLenMismatch
  | fatalQidMismatch
  | timerFifoRamRdbe
  | fatalEngWplDataParErr
  | pfchIIRamRdbe
  | wbCtxtRamRdbe
  | pfchCtxtRamRdbe
  | descReqFifoRamRdbe
  | intCtxtRamRdbe
  | intQid2vecRamRdbe
  | wrbCoalDataRamRdbe
  | tuserFifoRamRdbe
  | qidFifoRamRdbe
  | payloadFifoRamRdbe
  | wplDataParErr
  | noDmaDscErr
  | wbiMopErr
  | zeroLenDescErr
  deriving DecidableEq

/-- The name of an error. -/
def QdmaErrIdx.name : QdmaErrIdx → String
  | .errRamSbe => "err_ram_sbe"
  | .errRamDbe => "err_ram_dbe"
  | .errDsc => "err_dsc"
  | .errTrq => "err_trq"
  | .errH2cMm0 => "err_h2c_mm_0"
  | .errH2cMm1 => "err_h2c_mm_1"
  | .errC2hMm0 => "err_c2h_mm_0"
  | .errC2hMm1 => "err_c2h_mm_1"
  | .errC2hSt => "err_c2h_st"
  | .indCtxtCmdErr => "ind_ctxt_cmd_err"
  | .errBdg => "err_bdg"
  | .errH2cSt => "err_h2c_st"
  | .poison => "poison"
  | .urCa => "ur_ca"
  | .param => "param"
  | .addr => "addr"
  | .tag => "tag"
  | .flr => "flr"
  | .timeout => "timeout"
  | .datPoison => "dat_poison"
  | .flrCancel => "flr_cancel"
  | .dma => "dma"
  | .dsc => "dsc"
  | .rqCancel => "rq_cancel"
  | .dbe => "dbe"
  | .sbe => "sbe"
  | .unmapped => "unmapped"
  | .qidRange => "qid_range"
  | .vfAccessErr => "vf_access_err"
  | .tcpTimeout => "tcp_timeout"
  | .mtyMismatch => "mty_mismatch"
  | .lenMismatch => "len_mismatch"
  | .qidMismatch => "qid_mismatch"
  | .descRspErr => "desc_rsp_err"
  | .engWplDataParErr => "eng_wpl_data_par_err"
  | .msiIntFail => "msi_int_fail"
  | .errDescCnt => "err_desc_cnt"
  | .portidCtxtMismatch => "portid_ctxt_mismatch"
  | .portidBypInMismatch => "portid_byp_in_mismatch"
  | .wrbInvQErr => "wrb_inv_q_err"
  | .wrbQfullErr => "wrb_qfull_err"
  | .fatalMtyMismatch => "fatal_mty_mismatch"
  | .fatalLenMismatch => "fatal_len_mismatch"
  | .fatalQidMismatch => "fatal_qid_mismatch"
  | .timerFifoRamRdbe => "timer_fifo_ram_rdbe"
  | .fatalEngWplDataParErr => "fatal_eng_wpl_data_par_err"
  | .pfchIIRamRdbe => "pfch_II_ram_rdbe"
  | .wbCtxtRamRdbe => "wb_ctxt_ram_rdbe"
  | .pfchCtxtRamRdbe => "pfch_ctxt_ram_rdbe"
  | .descReqFifoRamRdbe => "desc_req_fifo_ram_rdbe"
  | .intCtxtRamRdbe => "int_ctxt_ram_rdbe"
  | .intQid2vecRamRdbe => "int_qid2vec_ram_rdbe"
  | .wrbCoalDataRamRdbe => "wrb_coal_data_ram_rdbe"
  | .tuserFifoRamRdbe => "tuser_fifo_ram_rdbe"
  | .qidFifoRamRdbe => "qid_fifo_ram_rdbe"
  | .payloadFifoRamRdbe => "payload_fifo_ram_rdbe"
  | .wplDataParErr => "wpl_data_par_err"
  | .noDmaDscErr => "no_dma_dsc_err"
  | .wbiMopErr => "wbi_mop_err"
  | .zeroLenDescErr => "zero_len_desc_err"

/-- All of them, in order. -/
def QdmaErrIdx.all : List QdmaErrIdx :=
  [.errRamSbe, .errRamDbe, .errDsc, .errTrq, .errH2cMm0, .errH2cMm1, .errC2hMm0, .errC2hMm1,
    .errC2hSt, .indCtxtCmdErr, .errBdg, .errH2cSt, .poison, .urCa, .param, .addr, .tag, .flr,
    .timeout, .datPoison, .flrCancel, .dma, .dsc, .rqCancel, .dbe, .sbe, .unmapped, .qidRange,
    .vfAccessErr, .tcpTimeout, .mtyMismatch, .lenMismatch, .qidMismatch, .descRspErr,
    .engWplDataParErr, .msiIntFail, .errDescCnt, .portidCtxtMismatch, .portidBypInMismatch,
    .wrbInvQErr, .wrbQfullErr, .fatalMtyMismatch, .fatalLenMismatch, .fatalQidMismatch,
    .timerFifoRamRdbe, .fatalEngWplDataParErr, .pfchIIRamRdbe, .wbCtxtRamRdbe, .pfchCtxtRamRdbe,
    .descReqFifoRamRdbe, .intCtxtRamRdbe, .intQid2vecRamRdbe, .wrbCoalDataRamRdbe,
    .tuserFifoRamRdbe, .qidFifoRamRdbe, .payloadFifoRamRdbe, .wplDataParErr, .noDmaDscErr,
    .wbiMopErr, .zeroLenDescErr]

/-- `qdma_errs`. -/
def qdmaErrs : ℕ := 60

/-- `qdma_err_str`; of its `qdma_errs` entries the last one is `NULL`. -/
def qdmaErrStr : List String :=
  ["err_ram_sbe", "err_ram_dbe", "err_dsc", "err_trq", "err_h2c_mm_0", "err_h2c_mm_1",
    "err_c2h_mm_0", "err_c2h_mm_1", "err_c2h_st", "ind_ctxt_cmd_err", "err_bdg", "err_h2c_st",
    "poison", "ur_ca", "param", "addr", "tag", "flr", "timeout", "dat_poison", "dsc", "dma",
    "rq_cancel", "dbe", "sbe", "unmapped", "qid_range", "vf_access_err", "tcp_timeout",
    "mty_mismatch", "len_mismatch", "qid_mismatch", "desc_rsp_err", "eng_wpl_data_par_err",
    "msi_int_fail", "err_desc_cnt", "portid_ctxt_mismatch", "portid_byp_in_mismatch",
    "wrb_inv_q_err", "wrb_qfull_err", "mty_mismatch", "len_mismatch", "qid_mismatch",
    "timer_fifo_ram_rdbe", "eng_wpl_data_par_err", "pfch_II_ram_rdbe", "wb_ctxt_ram_rdbe",
    "pfch_ctxt_ram_rdbe", "desc_req_fifo_ram_rdbe", "int_ctxt_ram_rdbe", "int_qid2vec_ram_rdbe",
    "wrb_coal_data_ram_rdbe", "tuser_fifo_ram_rdbe", "qid_fifo_ram_rdbe", "payload_fifo_ram_rdbe",
    "wpl_data_par_err", "no_dma_dsc_err", "wbi_mop_err", "zero_len_desc_err"]

/-- The errors whose names are in the table. -/
def namedErrs : List QdmaErrIdx :=
  [.errRamSbe, .errRamDbe, .errDsc, .errTrq, .errH2cMm0, .errH2cMm1, .errC2hMm0, .errC2hMm1,
    .errC2hSt, .indCtxtCmdErr, .errBdg, .errH2cSt, .poison, .urCa, .param, .addr, .tag, .flr,
    .timeout, .datPoison, .dsc, .dma, .rqCancel, .dbe, .sbe, .unmapped, .qidRange, .vfAccessErr,
    .tcpTimeout, .mtyMismatch, .lenMismatch, .qidMismatch, .descRspErr, .engWplDataParErr,
    .msiIntFail, .errDescCnt, .portidCtxtMismatch, .portidBypInMismatch, .wrbInvQErr,
    .wrbQfullErr, .mtyMismatch, .lenMismatch, .qidMismatch, .timerFifoRamRdbe, .engWplDataParErr,
    .pfchIIRamRdbe, .wbCtxtRamRdbe, .pfchCtxtRamRdbe, .descReqFifoRamRdbe, .intCtxtRamRdbe,
    .intQid2vecRamRdbe, .wrbCoalDataRamRdbe, .tuserFifoRamRdbe, .qidFifoRamRdbe,
    .payloadFifoRamRdbe, .wplDataParErr, .noDmaDscErr, .wbiMopErr, .zeroLenDescErr]

/-! ## What is sent -/

/-- The words `err_sel` and `err_mask` of `struct xcmd_q_parm`. -/
structure ErrWords where
  sel0 : BitVec 32 := 0
  sel1 : BitVec 32 := 0
  mask0 : BitVec 32 := 0
  mask1 : BitVec 32 := 0

/-- The loop body of `read_qparm` for one error: its bit is set in the mask, and in the selection
if it is switched on. -/
def ErrWords.enter (w : ErrWords) (errNo : ℕ) (enable : Bool) : ErrWords :=
  if errNo > 31 then
    { w with
      sel1 := w.sel1 ||| (if enable then 1#32 <<< (errNo - 31) else 0)
      mask1 := w.mask1 ||| 1#32 <<< (errNo - 31) }
  else
    { w with
      sel0 := w.sel0 ||| (if enable then 1#32 <<< errNo else 0)
      mask0 := w.mask0 ||| 1#32 <<< errNo }

/-- Two words joined, as in `xnl_err_induce`. -/
def joinWords (hi lo : BitVec 32) : BitVec 64 := hi.setWidth 64 <<< 32 ||| lo.setWidth 64

/-- `qdma_queue_set_err_indcution`, for a queue that is there. -/
def qdmaQueueSetErrIndcution (induceErr errSel errMask : BitVec 64) : BitVec 64 :=
  induceErr &&& ~~~errMask ||| errSel

/-- The words for a list of names and values. -/
def errWords (errs : List (String × Bool)) : ErrWords :=
  errs.foldl (fun w p => w.enter (qdmaErrStr.idxOf p.1) p.2) {}

/-- The errors of a queue after a list of names and values. -/
def inducedErrs (errs : List (String × Bool)) (induceErr : BitVec 64) : BitVec 64 :=
  let w := errWords errs
  qdmaQueueSetErrIndcution induceErr (joinWords w.sel1 w.sel0) (joinWords w.mask1 w.mask0)

/-! ## The law -/

/-- The last value that is asked for an error. -/
def askedValue (errs : List (String × Bool)) (e : QdmaErrIdx) : Option Bool :=
  (errs.filterMap fun p => if p.1 = e.name then some p.2 else none).getLast?

/-- **The errors that are named** have the values that are asked for, and no other error changes. -/
structure AskedErrs (errs : List (String × Bool)) (induceErr induceErr' : BitVec 64) : Prop where
  named : ∀ e : QdmaErrIdx, induceErr'.getLsbD e.ctorIdx
    = (askedValue errs e).getD (induceErr.getLsbD e.ctorIdx)
  rest : ∀ k, qdmaErrs ≤ k → induceErr'.getLsbD k = induceErr.getLsbD k

/-- The errors of which another bit is set. -/
def misplacedErrs : List QdmaErrIdx :=
  [.dsc, .rqCancel, .dbe, .sbe, .unmapped, .qidRange, .vfAccessErr, .tcpTimeout, .mtyMismatch,
    .lenMismatch, .qidMismatch]

/-- **When a list of known names does so**: none of these errors is on it, and what is switched on
stays on. -/
structure ErrsFit (errs : List (String × Bool)) : Prop where
  placed : ∀ p ∈ errs, ∀ e ∈ misplacedErrs, p.1 ≠ e.name
  stays : ∀ e : QdmaErrIdx, (e.name, true) ∈ errs → askedValue errs e = some true

/-! ## The tables -/

theorem qdmaErrStr_eq : qdmaErrStr = namedErrs.map QdmaErrIdx.name := rfl

theorem getElem_all (e : QdmaErrIdx) : QdmaErrIdx.all[e.ctorIdx]? = some e := by
  cases e <;> rfl

theorem mem_all (e : QdmaErrIdx) : e ∈ QdmaErrIdx.all :=
  List.mem_of_getElem? (getElem_all e)

theorem ctorIdx_inj {e e' : QdmaErrIdx} (h : e.ctorIdx = e'.ctorIdx) : e = e' := by
  have heq := getElem_all e
  rw [h, getElem_all e'] at heq
  exact (Option.some.inj heq).symm

theorem ctorIdx_lt (e : QdmaErrIdx) : e.ctorIdx < qdmaErrs :=
  (List.getElem?_eq_some_iff.mp (getElem_all e)).1

theorem name_inj {e e' : QdmaErrIdx} (h : e.name = e'.name) : e = e' := by
  have hnodup : (QdmaErrIdx.all.map QdmaErrIdx.name).Nodup := by decide +kernel
  exact List.inj_on_of_nodup_map hnodup (mem_all e) (mem_all e') h

/-- The names of the table are names of errors. -/
theorem mem_qdmaErrStr {s : String} (h : s ∈ qdmaErrStr) : ∃ e ∈ namedErrs, e.name = s := by
  rw [qdmaErrStr_eq] at h
  exact List.mem_map.mp h

/-- The place of a name in the table. -/
theorem idxOf_name (e : QdmaErrIdx) : qdmaErrStr.idxOf e.name = namedErrs.idxOf e := by
  have hmap : ∀ es : List QdmaErrIdx, (es.map QdmaErrIdx.name).idxOf e.name = es.idxOf e := by
    intro es
    induction es with
    | nil => rfl
    | cons e' es ih =>
        rw [List.map_cons, List.idxOf_cons, List.idxOf_cons, ih]
        by_cases he : e' = e
        · rw [he, beq_self_eq_true, beq_self_eq_true]
        · have hname : e'.name ≠ e.name := fun h => he (name_inj h)
          rw [beq_eq_false_iff_ne.mpr he, beq_eq_false_iff_ne.mpr hname]
  rw [qdmaErrStr_eq]
  exact hmap namedErrs

/-- The bit of the joined words for a place in the table: bit 31 of the words is left out. -/
def errBit (errNo : ℕ) : ℕ := if errNo > 31 then errNo + 1 else errNo

/-- The bit that is set for a name. -/
def errSpot (s : String) : ℕ := errBit (qdmaErrStr.idxOf s)

/-- **The errors whose bit is set** are those that are not misplaced. -/
theorem errSpot_placed {e : QdmaErrIdx} (h : e ∈ namedErrs) :
    errSpot e.name = e.ctorIdx ↔ e ∉ misplacedErrs := by
  have hall : ∀ e ∈ namedErrs,
      errBit (namedErrs.idxOf e) = e.ctorIdx ↔ e ∉ misplacedErrs := by decide +kernel
  unfold errSpot
  rw [idxOf_name]
  exact hall e h

/-- **The bit of a misplaced error** is set for no name, or for that of the next misplaced one. -/
theorem errSpot_next {e e' : QdmaErrIdx} (h : e ∈ misplacedErrs) (h' : e' ∈ namedErrs)
    (hspot : errSpot e'.name = e.ctorIdx) : e' ∈ misplacedErrs ∧ e.ctorIdx < e'.ctorIdx := by
  have hall : ∀ e ∈ misplacedErrs, ∀ e' ∈ namedErrs, errBit (namedErrs.idxOf e') = e.ctorIdx →
      e' ∈ misplacedErrs ∧ e.ctorIdx < e'.ctorIdx := by decide +kernel
  unfold errSpot at hspot
  rw [idxOf_name] at hspot
  exact hall e h e' h' hspot

/-! ## The words -/

theorem getLsbD_joinWords (hi lo : BitVec 32) (k : ℕ) : (joinWords hi lo).getLsbD k
    = if k < 32 then lo.getLsbD k else hi.getLsbD (k - 32) := by
  unfold joinWords
  rw [BitVec.getLsbD_or, BitVec.getLsbD_shiftLeft, BitVec.getLsbD_setWidth, BitVec.getLsbD_setWidth]
  by_cases hk : k < 32
  · rw [if_pos hk]
    simp [hk, Nat.lt_trans hk (show 32 < 64 by decide)]
  · have hlo : lo.getLsbD k = false := BitVec.getLsbD_of_ge _ _ (Nat.not_lt.mp hk)
    rw [if_neg hk, hlo]
    by_cases hk' : k < 64
    · simp [hk, hk', show k - 32 < 64 by omega]
    · have hhi : hi.getLsbD (k - 32) = false := BitVec.getLsbD_of_ge _ _ (by omega)
      rw [hhi]
      simp

theorem getLsbD_one_shift {m : ℕ} (hm : m < 32) (k : ℕ) :
    (1#32 <<< m).getLsbD k = decide (k = m) := by
  rw [BitVec.getLsbD_shiftLeft, BitVec.getLsbD_one]
  by_cases hk : k = m
  · simp [hk, hm]
  · have hno : ¬ (¬ k < m ∧ k - m = 0) := by omega
    simp only [hk, decide_false]
    by_cases hlt : k < m
    · simp [hlt]
    · have hsub : k - m ≠ 0 := by omega
      simp [hsub]

/-- An error more sets its bit in the words of a kind, if there is something to set. -/
theorem joinWords_or {hi lo : BitVec 32} {n : ℕ} (hn : n < 63) (b : Bool) (k : ℕ) :
    (if n > 31 then joinWords (hi ||| if b then 1#32 <<< (n - 31) else 0) lo
      else joinWords hi (lo ||| if b then 1#32 <<< n else 0)).getLsbD k
      = ((joinWords hi lo).getLsbD k || (b && decide (k = errBit n))) := by
  have hbit : ∀ (m j : ℕ), m < 32 →
      (if b then 1#32 <<< m else 0).getLsbD j = (b && decide (j = m)) := by
    intro m j hm
    cases b with
    | false => simp
    | true => exact getLsbD_one_shift hm j
  unfold errBit
  by_cases h31 : n > 31
  · rw [if_pos h31, if_pos h31, getLsbD_joinWords, getLsbD_joinWords, BitVec.getLsbD_or,
      hbit _ _ (by omega)]
    by_cases hk : k < 32
    · rw [if_pos hk, if_pos hk]
      simp [show k ≠ n + 1 by omega]
    · rw [if_neg hk, if_neg hk]
      simp only [show k - 32 = n - 31 ↔ k = n + 1 by omega]
  · rw [if_neg h31, if_neg h31, getLsbD_joinWords, getLsbD_joinWords, BitVec.getLsbD_or,
      hbit _ _ (by omega)]
    by_cases hk : k < 32
    · rw [if_pos hk, if_pos hk]
    · rw [if_neg hk, if_neg hk]
      simp [show k ≠ n by omega]

/-- The mask and the selection of the words, joined. -/
def ErrWords.mask (w : ErrWords) : BitVec 64 := joinWords w.mask1 w.mask0

/-- The selection. -/
def ErrWords.sel (w : ErrWords) : BitVec 64 := joinWords w.sel1 w.sel0

theorem getLsbD_enter (w : ErrWords) {n : ℕ} (hn : n < 63) (v : Bool) (k : ℕ) :
    (w.enter n v).mask.getLsbD k = (w.mask.getLsbD k || decide (k = errBit n)) ∧
      (w.enter n v).sel.getLsbD k = (w.sel.getLsbD k || (v && decide (k = errBit n))) := by
  have hmask : (w.enter n v).mask
      = if n > 31 then joinWords (w.mask1 ||| if true then 1#32 <<< (n - 31) else 0) w.mask0
        else joinWords w.mask1 (w.mask0 ||| if true then 1#32 <<< n else 0) := by
    unfold ErrWords.mask ErrWords.enter
    rw [if_pos rfl, if_pos rfl]
    by_cases h31 : n > 31
    · rw [if_pos h31, if_pos h31]
    · rw [if_neg h31, if_neg h31]
  have hsel : (w.enter n v).sel
      = if n > 31 then joinWords (w.sel1 ||| if v then 1#32 <<< (n - 31) else 0) w.sel0
        else joinWords w.sel1 (w.sel0 ||| if v then 1#32 <<< n else 0) := by
    unfold ErrWords.sel ErrWords.enter
    by_cases h31 : n > 31
    · rw [if_pos h31, if_pos h31]
    · rw [if_neg h31, if_neg h31]
  constructor
  · rw [hmask, joinWords_or hn true k, Bool.true_and]
    rfl
  · rw [hsel, joinWords_or hn v k]
    rfl

/-- **The bits of the words** are those of the names on the list. -/
theorem errWords_bits (errs : List (String × Bool)) (k : ℕ) :
    ((errWords errs).mask.getLsbD k = true ↔ ∃ p ∈ errs, errSpot p.1 = k) ∧
      ((errWords errs).sel.getLsbD k = true ↔ ∃ p ∈ errs, p.2 = true ∧ errSpot p.1 = k) := by
  have hfold : ∀ w : ErrWords,
      ((errs.foldl (fun w p => w.enter (qdmaErrStr.idxOf p.1) p.2) w).mask.getLsbD k = true ↔
        w.mask.getLsbD k = true ∨ ∃ p ∈ errs, errSpot p.1 = k) ∧
      ((errs.foldl (fun w p => w.enter (qdmaErrStr.idxOf p.1) p.2) w).sel.getLsbD k = true ↔
        w.sel.getLsbD k = true ∨ ∃ p ∈ errs, p.2 = true ∧ errSpot p.1 = k) := by
    induction errs with
    | nil =>
        intro w
        simp
    | cons p errs ih =>
        intro w
        have hle : qdmaErrStr.idxOf p.1 ≤ 59 := List.idxOf_le_length
        obtain ⟨hm, hs⟩ := getLsbD_enter w (show qdmaErrStr.idxOf p.1 < 63 by omega) p.2 k
        obtain ⟨ihm, ihs⟩ := ih (w.enter (qdmaErrStr.idxOf p.1) p.2)
        rw [List.foldl_cons, ihm, ihs, hm, hs]
        constructor
        · rw [Bool.or_eq_true, decide_eq_true_iff, List.exists_mem_cons_iff, or_assoc]
          exact or_congr_right (or_congr_left eq_comm)
        · rw [Bool.or_eq_true, Bool.and_eq_true, decide_eq_true_iff, List.exists_mem_cons_iff,
            or_assoc]
          exact or_congr_right (or_congr_left (and_congr_right fun _ => eq_comm))
  obtain ⟨hm, hs⟩ := hfold {}
  have hzero : ∀ j, ({} : ErrWords).mask.getLsbD j = false ∧
      ({} : ErrWords).sel.getLsbD j = false := by
    intro j
    have hjoin : (joinWords 0 0).getLsbD j = false := by
      rw [getLsbD_joinWords]
      split_ifs <;> exact BitVec.getLsbD_zero
    exact ⟨hjoin, hjoin⟩
  rw [(hzero k).1] at hm
  rw [(hzero k).2] at hs
  exact ⟨hm.trans (by simp), hs.trans (by simp)⟩

/-- A bit of the set that results. -/
theorem inducedErrs_bit (errs : List (String × Bool)) (induceErr : BitVec 64) {k : ℕ}
    (hk : k < 64) : (inducedErrs errs induceErr).getLsbD k
      = ((induceErr.getLsbD k && !(errWords errs).mask.getLsbD k)
        || (errWords errs).sel.getLsbD k) := by
  show (induceErr &&& ~~~(errWords errs).mask ||| (errWords errs).sel).getLsbD k = _
  rw [BitVec.getLsbD_or, BitVec.getLsbD_and, BitVec.getLsbD_not, decide_eq_true hk, Bool.true_and]

/-! ## The values that are asked for -/

section Asked

variable {errs : List (String × Bool)} {e : QdmaErrIdx}

theorem mem_asked {v : Bool} :
    v ∈ errs.filterMap (fun p => if p.1 = e.name then some p.2 else none) ↔ (e.name, v) ∈ errs := by
  rw [List.mem_filterMap]
  constructor
  · rintro ⟨p, hp, heq⟩
    by_cases hname : p.1 = e.name
    · rw [if_pos hname] at heq
      obtain rfl := Option.some.inj heq
      rwa [← hname]
    · rw [if_neg hname] at heq
      exact nomatch heq
  · intro h
    exact ⟨_, h, if_pos rfl⟩

theorem askedValue_mem {v : Bool} (h : askedValue errs e = some v) : (e.name, v) ∈ errs :=
  mem_asked.mp (List.mem_of_getLast? h)

theorem askedValue_of_mem {v : Bool} (h : (e.name, v) ∈ errs) :
    ∃ v', askedValue errs e = some v' := by
  unfold askedValue
  cases hlast : (errs.filterMap fun p => if p.1 = e.name then some p.2 else none).getLast? with
  | some v' => exact ⟨v', rfl⟩
  | none =>
      have hmem := mem_asked.mpr h
      rw [List.getLast?_eq_none_iff.mp hlast] at hmem
      exact absurd hmem List.not_mem_nil

end Asked

/-! ## When the errors are the named ones -/

section Induced

variable {errs : List (String × Bool)}

/-- The error of a name that is known. -/
theorem known_err (h : ∀ p ∈ errs, p.1 ∈ qdmaErrStr) {p : String × Bool} (hp : p ∈ errs) :
    ∃ e ∈ namedErrs, p = (e.name, p.2) := by
  obtain ⟨e, he, hname⟩ := mem_qdmaErrStr (h p hp)
  exact ⟨e, he, Prod.ext hname.symm rfl⟩

/-- **An error that is named has its bit in the mask**, if it always gets the value asked for. -/
theorem masked_of_asked (hasked : ∀ s, AskedErrs errs s (inducedErrs errs s)) {e : QdmaErrIdx}
    {v : Bool} (hv : (e.name, v) ∈ errs) : ∃ p ∈ errs, errSpot p.1 = e.ctorIdx := by
  apply (errWords_bits errs e.ctorIdx).1.mp
  by_contra hno
  have hlt : e.ctorIdx < 64 := lt_trans (ctorIdx_lt e) (by decide)
  obtain ⟨v', hlast⟩ := askedValue_of_mem hv
  -- a bit outside the mask keeps what was there, or is set
  have hbit : ∀ s : BitVec 64,
      (s.getLsbD e.ctorIdx || (errWords errs).sel.getLsbD e.ctorIdx) = v' := by
    intro s
    have hnamed := (hasked s).named e
    rw [hlast, inducedErrs_bit errs s hlt, Bool.not_eq_true _ |>.mp hno] at hnamed
    simpa using hnamed
  have hsel : (errWords errs).sel.getLsbD e.ctorIdx = false := by
    by_contra hsel
    obtain ⟨q, hq, -, hspot⟩ := (errWords_bits errs _).2.mp (Bool.not_eq_false _ |>.mp hsel)
    exact hno ((errWords_bits errs _).1.mpr ⟨q, hq, hspot⟩)
  have hzero := hbit 0#64
  have hones := hbit (BitVec.allOnes 64)
  rw [hsel, Bool.or_false] at hzero hones
  rw [BitVec.getLsbD_zero] at hzero
  rw [BitVec.getLsbD_allOnes, decide_eq_true hlt, ← hzero] at hones
  exact nomatch hones

/-- **No misplaced error is named**: the bit of each could only be set under the name of the next
one. -/
theorem placed_of_asked (h : ∀ p ∈ errs, p.1 ∈ qdmaErrStr)
    (hasked : ∀ s, AskedErrs errs s (inducedErrs errs s)) (n : ℕ) :
    ∀ e ∈ misplacedErrs, qdmaErrs ≤ e.ctorIdx + n → ∀ p ∈ errs, p.1 ≠ e.name := by
  induction n with
  | zero =>
      intro e he hle
      exact absurd (ctorIdx_lt e) (Nat.not_lt.mpr hle)
  | succ n ih =>
      intro e he hle p hp hname
      obtain ⟨q, hq, hspot⟩ := masked_of_asked hasked (e := e) (v := p.2) (hname ▸ hp)
      obtain ⟨e', he', hqe⟩ := known_err h hq
      have hnext := errSpot_next he he' (show errSpot e'.name = _ by rw [← hspot, hqe])
      refine ih e' hnext.1 (by omega) q hq ?_
      rw [hqe]

/-- The bits that are set are those of the errors, if none is misplaced. -/
theorem spot_iff (h : ∀ p ∈ errs, p.1 ∈ qdmaErrStr)
    (hplaced : ∀ p ∈ errs, ∀ e ∈ misplacedErrs, p.1 ≠ e.name) {p : String × Bool} (hp : p ∈ errs)
    (e : QdmaErrIdx) : errSpot p.1 = e.ctorIdx ↔ p.1 = e.name := by
  obtain ⟨e', he', hpe⟩ := known_err h hp
  have hspot : errSpot e'.name = e'.ctorIdx := by
    apply (errSpot_placed he').mpr
    intro hmis
    refine hplaced p hp e' hmis ?_
    rw [hpe]
  rw [hpe, hspot]
  constructor
  · intro hidx
    rw [ctorIdx_inj hidx]
  · intro hname
    rw [name_inj hname]

/-- The two words, if none of the names has another bit. -/
theorem mask_iff (h : ∀ p ∈ errs, p.1 ∈ qdmaErrStr)
    (hplaced : ∀ p ∈ errs, ∀ e ∈ misplacedErrs, p.1 ≠ e.name) (e : QdmaErrIdx) :
    (errWords errs).mask.getLsbD e.ctorIdx = true ↔ ∃ v, (e.name, v) ∈ errs := by
  rw [(errWords_bits errs _).1]
  constructor
  · rintro ⟨p, hp, hspot⟩
    rw [spot_iff h hplaced hp e] at hspot
    exact ⟨p.2, hspot ▸ hp⟩
  · rintro ⟨v, hv⟩
    exact ⟨_, hv, (spot_iff h hplaced hv e).mpr rfl⟩

theorem sel_iff (h : ∀ p ∈ errs, p.1 ∈ qdmaErrStr)
    (hplaced : ∀ p ∈ errs, ∀ e ∈ misplacedErrs, p.1 ≠ e.name) (e : QdmaErrIdx) :
    (errWords errs).sel.getLsbD e.ctorIdx = true ↔ (e.name, true) ∈ errs := by
  rw [(errWords_bits errs _).2]
  constructor
  · rintro ⟨p, hp, hon, hspot⟩
    rw [spot_iff h hplaced hp e] at hspot
    rwa [← hspot, ← hon]
  · intro hv
    exact ⟨_, hv, rfl, (spot_iff h hplaced hv e).mpr rfl⟩

/-- The bit of an error is the value asked for. -/
theorem ErrsFit.named (h : ∀ p ∈ errs, p.1 ∈ qdmaErrStr) (hfit : ErrsFit errs) (s : BitVec 64)
    (e : QdmaErrIdx) : (inducedErrs errs s).getLsbD e.ctorIdx
      = (askedValue errs e).getD (s.getLsbD e.ctorIdx) := by
  have hmask := mask_iff h hfit.placed e
  have hsel := sel_iff h hfit.placed e
  rw [inducedErrs_bit errs s (lt_trans (ctorIdx_lt e) (by decide))]
  cases hlast : askedValue errs e with
  | none =>
      have hno : ∀ v, (e.name, v) ∉ errs := by
        intro v hv
        obtain ⟨v', hv'⟩ := askedValue_of_mem hv
        rw [hlast] at hv'
        exact nomatch hv'
      rw [Bool.not_eq_true _ |>.mp fun hm => (hmask.mp hm).elim hno,
        Bool.not_eq_true _ |>.mp fun hs => hno true (hsel.mp hs)]
      simp
  | some v =>
      rw [hmask.mpr ⟨v, askedValue_mem hlast⟩]
      cases v with
      | true =>
          rw [hsel.mpr (askedValue_mem hlast), Bool.or_true]
          rfl
      | false =>
          have hoff : (errWords errs).sel.getLsbD e.ctorIdx = false := by
            apply Bool.not_eq_true _ |>.mp
            intro hon
            have hstays := hfit.stays e (hsel.mp hon)
            rw [hlast] at hstays
            exact nomatch hstays
          rw [hoff]
          simp

/-- No bit behind those of the errors changes. -/
theorem ErrsFit.rest (h : ∀ p ∈ errs, p.1 ∈ qdmaErrStr) (hfit : ErrsFit errs) (s : BitVec 64)
    {k : ℕ} (hk : qdmaErrs ≤ k) : (inducedErrs errs s).getLsbD k = s.getLsbD k := by
  by_cases hlt : k < 64
  swap
  · have hge := Nat.not_lt.mp hlt
    rw [BitVec.getLsbD_of_ge _ _ hge, BitVec.getLsbD_of_ge _ _ hge]
  have hno : ∀ p ∈ errs, errSpot p.1 ≠ k := by
    intro p hp hspot
    obtain ⟨e, -, hpe⟩ := known_err h hp
    have hidx := (spot_iff h hfit.placed hp e).mpr (by rw [hpe])
    have hlt' := ctorIdx_lt e
    omega
  rw [inducedErrs_bit errs s hlt,
    Bool.not_eq_true _ |>.mp fun hm => ((errWords_bits errs k).1.mp hm).elim fun p hp =>
      hno p hp.1 hp.2,
    Bool.not_eq_true _ |>.mp fun hs => ((errWords_bits errs k).2.mp hs).elim fun p hp =>
      hno p hp.1 hp.2.2]
  simp

/-- **When the errors that change are the named ones.** -/
theorem induced_iff (h : ∀ p ∈ errs, p.1 ∈ qdmaErrStr) :
    (∀ s, AskedErrs errs s (inducedErrs errs s)) ↔ ErrsFit errs := by
  constructor
  · intro hasked
    have hplaced : ∀ p ∈ errs, ∀ e ∈ misplacedErrs, p.1 ≠ e.name := fun p hp e he =>
      placed_of_asked h hasked qdmaErrs e he (Nat.le_add_left _ _) p hp
    refine ⟨hplaced, fun e hon => ?_⟩
    -- the bit is set whatever it was, so the last value is that it is on
    have hlt : e.ctorIdx < 64 := lt_trans (ctorIdx_lt e) (by decide)
    obtain ⟨v, hlast⟩ := askedValue_of_mem hon
    have hnamed := (hasked 0).named e
    rw [hlast, inducedErrs_bit errs 0 hlt, (sel_iff h hplaced e).mpr hon, Bool.or_true] at hnamed
    rw [hlast, show v = true from hnamed.symm]
  · intro hfit s
    exact ⟨hfit.named h s, fun _ hk => hfit.rest h s hk⟩

end Induced

end Qdma
