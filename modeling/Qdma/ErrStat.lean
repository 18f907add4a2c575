/-
# Error status

`err_stat_handler` reads the error status registers, one after the other, and logs the errors whose
bits are set and in the mask of the register.  It takes their names from a table, in which they lie
without gaps: the name of an error is found by the rank of its bit in the mask.

`err_stat_iff` says for which values of the registers the names are those of the errors.
-/
import Qdma.MaskScan

namespace Qdma

open MaskScan

/-! ## Registers -/

/-- `struct qdma_err_stat_info`, with the mask and the names of its `struct qdma_err_info`. -/
structure ErrStatInfo where
  errName : String
  statRegAddr : ℕ
  intrMask : BitVec 32
  stat : List String

/-- `QDMA_REG_GLBL_ERR_STAT`. -/
def qdmaRegGlblErrStat : ℕ := 0x248

/-- `QDMA_GLBL_DSC_ERR_STS`. -/
def qdmaGlblDscErrSts : ℕ := 0x254

/-- `QDMA_GLBL_TRQ_ERR_STS`. -/
def qdmaGlblTrqErrSts : ℕ := 0x264

/-- `QDMA_REG_C2H_ERR_STAT`. -/
def qdmaRegC2hErrStat : ℕ := 0xAF0

/-- `QDMA_C2H_FATAL_ERR_STAT`. -/
def qdmaC2hFatalErrStat : ℕ := 0xAF8

/-- `QDMA_H2C_ERR_STAT`. -/
def qdmaH2cErrStat : ℕ := 0xE00

/-- `QDMA_C2H_ERR_INT`. -/
def qdmaC2hErrInt : ℕ := 0xB04

/-- `glbl_err_info`. -/
def glblErrInfo : List String :=
  ["err_ram_sbe", "err_ram_dbe", "err_dsc", "err_trq", "err_h2c_mm_0", "err_h2c_mm_1",
    "err_c2h_mm_0", "err_c2h_mm_1", "err_c2h_st", "ind_ctxt_cmd_err", "err_bdg", "err_h2c_st"]

/-- `dsc_err_info`. -/
def dscErrInfo : List String :=
  ["poison", "ur_ca", "param", "addr", "tag", "flr", "timeout", "dat_poison", "flr_cancel", "dma",
    "dsc", "rq_cancel", "dbe", "sbe"]

/-- `trq_err_info`. -/
def trqErrInfo : List String := ["unmapped", "qid_range", "vf_access_err", "tcp_timeout"]

/-- `c2h_err_info`. -/
def c2hErrInfo : List String :=
  ["mty_mismatch", "len_mismatch", "qid_mismatch", "desc_rsp_err", "eng_wpl_data_par_err",
    "msi_int_fail", "err_desc_cnt", "portid_ctxt_mismatch", "portid_byp_in_mismatch",
    "wrb_inv_q_err", "wrb_qfull_err"]

/-- `c2h_fatal_err_info`. -/
def c2hFatalErrInfo : List String :=
  ["mty_mismatch", "len_mismatch", "qid_mismatch", "timer_fifo_ram_rdbe", "eng_wpl_data_par_err",
    "pfch_II_ram_rdbe", "wb_ctxt_ram_rdbe", "pfch_ctxt_ram_rdbe", "desc_req_fifo_ram_rdbe",
    "int_ctxt_ram_rdbe", "int_qid2vec_ram_rdbe", "wrb_coal_data_ram_rdbe", "tuser_fifo_ram_rdbe",
    "qid_fifo_ram_rdbe", "payload_fifo_ram_rdbe", "wpl_data_par_err"]

/-- `h2c_err_info`. -/
def h2cErrInfo : List String := ["no_dma_dsc_err", "wbi_mop_err", "zero_len_desc_err"]

/-- The first entry of `err_stat_info`. -/
def glblErr : ErrStatInfo := ⟨"glbl_err", qdmaRegGlblErrStat, 0xFFF, glblErrInfo⟩

/-- `err_stat_info`.  It has `HW_ERRS` entries, which is one more than there are registers; the last
is zero. -/
def errStatInfo : List ErrStatInfo :=
  [glblErr, ⟨"dsc_err", qdmaGlblDscErrSts, 0x1F9023F, dscErrInfo⟩,
    ⟨"trq_err", qdmaGlblTrqErrSts, 0xF, trqErrInfo⟩,
    ⟨"c2h_err", qdmaRegC2hErrStat, 0x3EDB, c2hErrInfo⟩,
    ⟨"c2h_fatal_err", qdmaC2hFatalErrStat, 0x7FF1B, c2hFatalErrInfo⟩,
    ⟨"h2c_err", qdmaH2cErrStat, 0x7, h2cErrInfo⟩, ⟨"", 0, 0, []⟩]

/-! ## The handler -/

/-- The part of the device for the error interrupt; `intrVecMap` has the type and the index of each
vector. -/
structure ErrDev where
  funcId : BitVec 8
  intrVecMap : List (ℕ × BitVec 8) := []
  intrCoalEn : Bool := false

/-- `INTR_TYPE_ERROR`. -/
def intrTypeError : ℕ := 0

/-- `get_intr_vec_index`. -/
def ErrDev.getIntrVecIndex (x : ErrDev) (intrType : ℕ) : BitVec 8 :=
  match x.intrVecMap.find? fun v => v.1 = intrType with
  | some v => v.2
  | none => 0

/-- What the handler does.  `detected` has the name that is logged, or `none` if it is read behind
the end of its table. -/
inductive ErrEvent where
  | read (addr : ℕ)
  | info (errName : String) (addr : ℕ) (errStat : BitVec 32)
  | detected (name : Option String)
  | write (addr : ℕ) (val : BitVec 32)
deriving DecidableEq

/-- What `qdma_err_intr_setup` writes to re-arm the interrupt. -/
def ErrDev.errIntVal (x : ErrDev) : BitVec 32 :=
  x.funcId.setWidth 32 ||| (x.getIntrVecIndex intrTypeError).setWidth 32 <<< 8 |||
    (if x.intrCoalEn then 1#32 <<< 16 else 0) ||| 1#32 <<< 17

/-- The inner loop of `err_stat_handler`, for a mask that is left after at most `fuel` steps. -/
def errBits (stat : List String) (errStat : BitVec 32) :
    ℕ → BitVec 32 → BitVec 32 → ℕ → List ErrEvent
  | 0, _, _, _ => []
  | fuel + 1, intrMask, chkMask, bit =>
      if intrMask = 0#32 then []
      else
        (if intrMask &&& 1#32 ≠ 0#32 ∧ errStat &&& chkMask ≠ 0#32 then [.detected stat[bit]?]
          else []) ++
          errBits stat errStat fuel (intrMask >>> 1) (chkMask <<< 1)
            (if intrMask &&& 1#32 ≠ 0#32 then bit + 1 else bit)

/-- The body of its outer loop. -/
def errStatOne (r : ErrStatInfo) (errStat : BitVec 32) : List ErrEvent :=
  .read r.statRegAddr ::
    if errStat &&& r.intrMask ≠ 0#32 then
      .info r.errName r.statRegAddr errStat :: errBits r.stat errStat 32 r.intrMask 1#32 0 ++
        [.write r.statRegAddr errStat]
    else []

/-- `err_stat_handler`; `reg` has what is read. -/
def errStatHandler (x : ErrDev) (reg : ℕ → BitVec 32) : List ErrEvent :=
  let glbErrStat := reg glblErr.statRegAddr
  (errStatInfo.flatMap fun r => errStatOne r (reg r.statRegAddr)) ++
    if glbErrStat ≠ 0#32 then
      [.write glblErr.statRegAddr glbErrStat, .write qdmaC2hErrInt x.errIntVal]
    else []

/-! ## What is asked of it -/

/-- The errors of a register by their bits: `QDMA_REG_GLBL_F_*`, -/
def glblErrBits : List (ℕ × String) :=
  [(0, "err_ram_sbe"), (1, "err_ram_dbe"), (2, "err_dsc"), (3, "err_trq"), (4, "err_h2c_mm_0"),
    (5, "err_h2c_mm_1"), (6, "err_c2h_mm_0"), (7, "err_c2h_mm_1"), (8, "err_c2h_st"),
    (9, "ind_ctxt_cmd_err"), (10, "err_bdg"), (11, "err_h2c_st")]

/-- `QDMA_GLBL_DSC_ERR_STS_A_F_*`, where `RQ_CHAN` is the one that the driver calls `rq_cancel`, -/
def dscErrBits : List (ℕ × String) :=
  [(0, "poison"), (1, "ur_ca"), (2, "param"), (3, "addr"), (4, "tag"), (5, "flr"), (9, "timeout"),
    (16, "dat_poison"), (19, "flr_cancel"), (20, "dma"), (21, "dsc"), (22, "rq_cancel"),
    (23, "dbe"), (24, "sbe")]

/-- `QDMA_GLBL_TRQ_ERR_STS_F_*`, -/
def trqErrBits : List (ℕ × String) :=
  [(0, "unmapped"), (1, "qid_range"), (2, "vf_access_err"), (3, "tcp_timeout")]

/-- `QDMA_REG_C2H_ERR_F_*`, -/
def c2hErrBits : List (ℕ × String) :=
  [(0, "mty_mismatch"), (1, "len_mismatch"), (3, "qid_mismatch"), (4, "desc_rsp_err"),
    (6, "eng_wpl_data_par_err"), (7, "msi_int_fail"), (9, "err_desc_cnt"),
    (10, "portid_ctxt_mismatch"), (11, "portid_byp_in_mismatch"), (12, "wrb_inv_q_err"),
    (13, "wrb_qfull_err")]

/-- `QDMA_C2H_FATAL_ERR_STAT_*`, among which there is no parity error of the engine, -/
def c2hFatalErrBits : List (ℕ × String) :=
  [(0, "mty_mismatch"), (1, "len_mismatch"), (3, "qid_mismatch"), (4, "timer_fifo_ram_rdbe"),
    (8, "pfch_II_ram_rdbe"), (9, "wb_ctxt_ram_rdbe"), (10, "pfch_ctxt_ram_rdbe"),
    (11, "desc_req_fifo_ram_rdbe"), (12, "int_ctxt_ram_rdbe"), (13, "int_qid2vec_ram_rdbe"),
    (14, "wrb_coal_data_ram_rdbe"), (15, "tuser_fifo_ram_rdbe"), (16, "qid_fifo_ram_rdbe"),
    (17, "payload_fifo_ram_rdbe"), (18, "wpl_data_par_err")]

/-- and `QDMA_H2C_ERR_*`. -/
def h2cErrBits : List (ℕ × String) :=
  [(0, "zero_len_desc_err"), (1, "wbi_mop_err"), (2, "no_dma_dsc_err")]

/-- The errors of the register at an address, as `qdma_regs.h` has them, under the names of the
driver. -/
def regErrBits (addr : ℕ) : List (ℕ × String) :=
  if addr = qdmaRegGlblErrStat then glblErrBits
  else if addr = qdmaGlblDscErrSts then dscErrBits
  else if addr = qdmaGlblTrqErrSts then trqErrBits
  else if addr = qdmaRegC2hErrStat then c2hErrBits
  else if addr = qdmaC2hFatalErrStat then c2hFatalErrBits
  else if addr = qdmaH2cErrStat then h2cErrBits
  else []

/-- The name of a bit. -/
def regErrName (addr b : ℕ) : String := ((regErrBits addr).lookup b).getD ""

/-- The names that are due for a register: those of the bits that are set and in the mask. -/
def dueNames (r : ErrStatInfo) (errStat : BitVec 32) : List String :=
  ((bits r.intrMask).filter fun b => errStat.getLsbD b).map (regErrName r.statRegAddr)

/-- A name that is logged. -/
def ErrEvent.logged : ErrEvent → Option (Option String)
  | .detected name => some name
  | _ => none

/-- **The errors are decoded.** -/
structure ErrDecoded (reg : ℕ → BitVec 32) (t : List ErrEvent) : Prop where
  named : t.filterMap ErrEvent.logged =
    (errStatInfo.flatMap fun r => dueNames r (reg r.statRegAddr)).map some
  inTable : .detected none ∉ t
  writtenBack : ∀ r ∈ errStatInfo, reg r.statRegAddr &&& r.intrMask ≠ 0#32 →
    .write r.statRegAddr (reg r.statRegAddr) ∈ t
  sameStatus : ∀ r ∈ errStatInfo, ∀ v, .write r.statRegAddr v ∈ t → v = reg r.statRegAddr
  rearmed : (∃ v, .write qdmaC2hErrInt v ∈ t ∧ v.getLsbD 17 = true) ↔
    reg qdmaRegGlblErrStat ≠ 0#32

/-- **When they are**: no error of the fatal C2H register from the prefetch RAM on, and neither a
descriptor of length zero nor one that is not for DMA on H2C. -/
def ErrNamesFit (reg : ℕ → BitVec 32) : Prop :=
  reg qdmaC2hFatalErrStat &&& 0x7FF00#32 = 0#32 ∧ reg qdmaH2cErrStat &&& 0x5#32 = 0#32

/-! ## One register -/

/-- The inner loop logs the names at the ranks of the bits. -/
theorem errBits_eq_scan (stat : List String) (s : BitVec 32) (n : ℕ) (m c : BitVec 32) (k : ℕ) :
    errBits stat s n m c k = (scan s n m c k).map fun k => .detected stat[k]? := by
  induction n generalizing m c k with
  | zero => rfl
  | succ n ih =>
      rw [errBits, scan]
      split_ifs with hzero hpick hodd hodd
      · rfl
      · rw [ih, List.map_append]
        rfl
      · exact absurd hpick.1 hodd
      · rw [ih]
        rfl
      · rw [ih]
        rfl

theorem errBits_eq (stat : List String) (s m : BitVec 32) :
    errBits stat s 32 m 1#32 0 = (picked s (bits m) 0).map fun k => .detected stat[k]? := by
  rw [errBits_eq_scan, scan_bits s m le_rfl]

/-- The names that are logged for a register. -/
def loggedNames (r : ErrStatInfo) (errStat : BitVec 32) : List (Option String) :=
  (picked errStat (bits r.intrMask) 0).map fun k => r.stat[k]?

/-- **The masks are those of the errors** of `qdma_regs.h`, and each table is long enough. -/
theorem errStatInfo_masks : ∀ r ∈ errStatInfo,
    bits r.intrMask = (regErrBits r.statRegAddr).map Prod.fst ∧
      (bits r.intrMask).length ≤ r.stat.length := by
  decide +kernel

theorem filterMap_errBits (stat : List String) (s m : BitVec 32) :
    (errBits stat s 32 m 1#32 0).filterMap ErrEvent.logged =
      (picked s (bits m) 0).map fun k => stat[k]? := by
  rw [errBits_eq, List.filterMap_map]
  exact congrFun List.filterMap_eq_map _

/-- A register without a masked bit logs nothing, and nothing is picked. -/
theorem filterMap_errStatOne (r : ErrStatInfo) (s : BitVec 32) :
    (errStatOne r s).filterMap ErrEvent.logged = loggedNames r s := by
  unfold errStatOne loggedNames
  split_ifs with hfires
  · rw [List.filterMap_cons, List.filterMap_append, List.filterMap_cons, filterMap_errBits]
    exact List.append_nil _
  · have hnone : ∀ b ∈ bits r.intrMask, s.getLsbD b = false :=
      and_eq_zero_iff.mp (not_not.mp hfires)
    have hpicked : picked s (bits r.intrMask) 0 = [] := by
      refine List.eq_nil_of_length_eq_zero ?_
      rw [length_picked, List.length_eq_zero_iff, List.filter_eq_nil_iff]
      exact fun b hb => Bool.eq_false_iff.mp (hnone b hb)
    rw [hpicked]
    rfl

/-- The bits that are logged under another name, or none. -/
def misnamed (r : ErrStatInfo) : List ℕ :=
  ((bits r.intrMask).zipIdx.filter fun p =>
    decide (r.stat[p.2]? ≠ some (regErrName r.statRegAddr p.1))).map Prod.fst

/-- **The names are right** if no bit is set that is misnamed. -/
theorem loggedNames_eq_iff (r : ErrStatInfo) (s : BitVec 32) :
    loggedNames r s = (dueNames r s).map some ↔ ∀ b ∈ misnamed r, s.getLsbD b = false := by
  unfold loggedNames dueNames misnamed
  rw [List.map_map, map_picked_eq_iff, List.forall_mem_map]
  simp only [List.mem_filter, decide_eq_true_eq, Function.comp_apply]
  constructor
  · rintro h p ⟨hp, hne⟩
    by_contra hset
    exact hne (h p hp (Bool.not_eq_false _ ▸ hset))
  · intro h p hp hset
    by_contra hne
    exact Bool.false_ne_true ((h p ⟨hp, hne⟩).symm.trans hset)

theorem length_loggedNames (r : ErrStatInfo) (s : BitVec 32) :
    (loggedNames r s).length = ((dueNames r s).map some).length := by
  unfold loggedNames dueNames
  rw [List.length_map, List.length_map, List.length_map, length_picked]

/-- **What is misnamed**: the fatal errors behind the name that has no bit, and the two of the H2C
register that are the other way round. -/
def misnamedMask (addr : ℕ) : BitVec 32 :=
  if addr = qdmaC2hFatalErrStat then 0x7FF00#32
  else if addr = qdmaH2cErrStat then 0x5#32
  else 0#32

theorem errStatInfo_misnamed :
    ∀ r ∈ errStatInfo, misnamed r = bits (misnamedMask r.statRegAddr) := by
  decide +kernel

/-! ## The handler -/

/-- What is logged, register by register. -/
theorem filterMap_errStatHandler (x : ErrDev) (reg : ℕ → BitVec 32) :
    (errStatHandler x reg).filterMap ErrEvent.logged =
      errStatInfo.flatMap fun r => loggedNames r (reg r.statRegAddr) := by
  have htail : ∀ (p : Prop) [Decidable p] (e : ErrEvent) (e' : ErrEvent), e.logged = none →
      e'.logged = none → (if p then [e, e'] else []).filterMap ErrEvent.logged = [] := by
    intro p _ e e' he he'
    split_ifs
    · rw [List.filterMap_cons_none he, List.filterMap_cons_none he', List.filterMap_nil]
    · rfl
  unfold errStatHandler
  rw [List.filterMap_append, htail _ _ _ rfl rfl, List.append_nil, List.filterMap_flatMap]
  simp only [filterMap_errStatOne]

/-- The inner loop only logs, and reads no name behind the end of a table that is long enough. -/
theorem mem_errBits {stat : List String} {s m : BitVec 32} {e : ErrEvent}
    (h : e ∈ errBits stat s 32 m 1#32 0) :
    ∃ k < (bits m).length, e = .detected stat[k]? := by
  rw [errBits_eq] at h
  obtain ⟨k, hk, rfl⟩ := List.mem_map.mp h
  exact ⟨k, lt_of_mem_picked hk, rfl⟩

theorem write_mem_errStatOne {r : ErrStatInfo} {s v : BitVec 32} {addr : ℕ} :
    .write addr v ∈ errStatOne r s ↔ addr = r.statRegAddr ∧ v = s ∧ s &&& r.intrMask ≠ 0#32 := by
  unfold errStatOne
  split_ifs with hfires
  · simp only [List.cons_append, List.mem_cons, List.mem_append, reduceCtorEq, false_or,
      ErrEvent.write.injEq, List.not_mem_nil, or_false]
    constructor
    · rintro (h | h)
      · obtain ⟨k, -, hk⟩ := mem_errBits h
        exact nomatch hk
      · exact ⟨h.1, h.2, hfires⟩
    · exact fun h => .inr ⟨h.1, h.2.1⟩
  · simp only [List.mem_singleton, reduceCtorEq, false_iff]
    exact fun h => hfires h.2.2

/-- **What is written**: to a register with a masked bit, its status; and if there is a global
error, that status, too, and the interrupt is re-armed. -/
theorem write_mem_errStatHandler {x : ErrDev} {reg : ℕ → BitVec 32} {addr : ℕ} {v : BitVec 32} :
    .write addr v ∈ errStatHandler x reg ↔
      (∃ r ∈ errStatInfo, addr = r.statRegAddr ∧ v = reg r.statRegAddr ∧
          reg r.statRegAddr &&& r.intrMask ≠ 0#32) ∨
        reg qdmaRegGlblErrStat ≠ 0#32 ∧
          (addr = qdmaRegGlblErrStat ∧ v = reg qdmaRegGlblErrStat ∨
            addr = qdmaC2hErrInt ∧ v = x.errIntVal) := by
  have hglbl : glblErr.statRegAddr = qdmaRegGlblErrStat := rfl
  unfold errStatHandler
  rw [List.mem_append, List.mem_flatMap, hglbl]
  simp only [write_mem_errStatOne]
  refine or_congr_right ?_
  split_ifs with hglob
  · rw [and_iff_right hglob, List.mem_cons, List.mem_singleton, ErrEvent.write.injEq,
      ErrEvent.write.injEq]
  · exact iff_of_false List.not_mem_nil (fun h => hglob h.1)

/-- No name is read behind the end of its table. -/
theorem none_not_mem_errStatHandler (x : ErrDev) (reg : ℕ → BitVec 32) :
    .detected none ∉ errStatHandler x reg := by
  unfold errStatHandler
  intro h
  rcases List.mem_append.mp h with hmem | hmem
  · obtain ⟨r, hr, hin⟩ := List.mem_flatMap.mp hmem
    unfold errStatOne at hin
    split_ifs at hin
    · simp only [List.cons_append, List.mem_cons, List.mem_append, reduceCtorEq, false_or,
        List.not_mem_nil, or_false] at hin
      obtain ⟨k, hk, heq⟩ := mem_errBits hin
      rw [List.getElem?_eq_getElem (hk.trans_le (errStatInfo_masks r hr).2)] at heq
      exact nomatch heq
    · exact absurd hin (by simp)
  · split_ifs at hmem
    · exact absurd hmem (by simp)
    · exact absurd hmem List.not_mem_nil

/-- **Whatever the registers hold**, the status is written back and the interrupt re-armed; only the
names can be wrong. -/
theorem errDecoded_iff_named (x : ErrDev) (reg : ℕ → BitVec 32) :
    ErrDecoded reg (errStatHandler x reg) ↔
      ∀ r ∈ errStatInfo, loggedNames r (reg r.statRegAddr) =
        (dueNames r (reg r.statRegAddr)).map some := by
  have happart : ∀ r ∈ errStatInfo, r.statRegAddr ≠ qdmaC2hErrInt := by decide
  have hnamed : (errStatHandler x reg).filterMap ErrEvent.logged =
        (errStatInfo.flatMap fun r => dueNames r (reg r.statRegAddr)).map some ↔
      ∀ r ∈ errStatInfo, loggedNames r (reg r.statRegAddr) =
        (dueNames r (reg r.statRegAddr)).map some := by
    rw [filterMap_errStatHandler, List.map_flatMap]
    exact flatMap_eq_iff (fun r _ => length_loggedNames r _)
  refine ⟨fun h => hnamed.mp h.named, fun h => ⟨hnamed.mpr h, none_not_mem_errStatHandler x reg,
    fun r hr hfires => write_mem_errStatHandler.mpr (.inl ⟨r, hr, rfl, rfl, hfires⟩),
    fun r hr v hv => ?_, ?_, fun hglob => ?_⟩⟩
  · rcases write_mem_errStatHandler.mp hv with ⟨r', -, haddr, hval, -⟩ | ⟨-, h | h⟩
    · rw [hval, haddr]
    · rw [h.2, h.1]
    · exact absurd h.1 (happart r hr)
  · rintro ⟨v, hv, -⟩
    rcases write_mem_errStatHandler.mp hv with ⟨r, hr, haddr, -⟩ | ⟨hglob, -⟩
    · exact absurd haddr.symm (happart r hr)
    · exact hglob
  · refine ⟨x.errIntVal, write_mem_errStatHandler.mpr (.inr ⟨hglob, .inr ⟨rfl, rfl⟩⟩), ?_⟩
    unfold ErrDev.errIntVal
    rw [BitVec.getLsbD_or, Bool.or_eq_true]
    exact .inr (by decide)

/-- **When the errors are decoded**: for every device and all values of the registers. -/
theorem err_stat_iff (x : ErrDev) (reg : ℕ → BitVec 32) :
    ErrDecoded reg (errStatHandler x reg) ↔ ErrNamesFit reg := by
  rw [errDecoded_iff_named]
  have hbits : ∀ r ∈ errStatInfo, (loggedNames r (reg r.statRegAddr) =
      (dueNames r (reg r.statRegAddr)).map some ↔
        reg r.statRegAddr &&& misnamedMask r.statRegAddr = 0#32) := by
    intro r hr
    rw [loggedNames_eq_iff, errStatInfo_misnamed r hr, and_eq_zero_iff]
  rw [forall₂_congr hbits]
  constructor
  · intro h
    have hmem : (⟨"c2h_fatal_err", qdmaC2hFatalErrStat, 0x7FF1B, c2hFatalErrInfo⟩ : ErrStatInfo) ∈
        errStatInfo ∧ ⟨"h2c_err", qdmaH2cErrStat, 0x7, h2cErrInfo⟩ ∈ errStatInfo := by
      simp [errStatInfo]
    exact ⟨h _ hmem.1, h _ hmem.2⟩
  · rintro ⟨hfatal, hh2c⟩ r -
    by_cases hf : r.statRegAddr = qdmaC2hFatalErrStat
    · rw [hf]
      exact hfatal
    by_cases hh : r.statRegAddr = qdmaH2cErrStat
    · rw [hh]
      exact hh2c
    · unfold misnamedMask
      rw [if_neg hf, if_neg hh, BitVec.and_zero]

/-- One register has this status, and the others are zero. -/
def onlyStatus (addr : ℕ) (v : BitVec 32) : ℕ → BitVec 32 := fun a =>
  if a = addr then v else 0

/-- **Other names**: an error of the prefetch RAM is logged as one of parity, which has no bit in
the register, and an H2C descriptor of length zero as one that is not for DMA. -/
theorem err_stat_misnamed :
    ((errStatHandler { funcId := 0 } (onlyStatus qdmaC2hFatalErrStat 0x100)).filterMap
        ErrEvent.logged = [some "eng_wpl_data_par_err"] ∧
      regErrName qdmaC2hFatalErrStat 8 = "pfch_II_ram_rdbe" ∧
      ¬ ErrDecoded (onlyStatus qdmaC2hFatalErrStat 0x100)
        (errStatHandler { funcId := 0 } (onlyStatus qdmaC2hFatalErrStat 0x100))) ∧
      (errStatHandler { funcId := 0 } (onlyStatus qdmaH2cErrStat 0x1)).filterMap
        ErrEvent.logged = [some "no_dma_dsc_err"] ∧
      regErrName qdmaH2cErrStat 0 = "zero_len_desc_err" ∧
      ¬ ErrDecoded (onlyStatus qdmaH2cErrStat 0x1)
        (errStatHandler { funcId := 0 } (onlyStatus qdmaH2cErrStat 0x1)) := by
  refine ⟨⟨by decide +kernel, by decide +kernel, fun h => ?_⟩, by decide +kernel,
    by decide +kernel, fun h => ?_⟩
  · exact absurd h.named (by decide +kernel)
  · exact absurd h.named (by decide +kernel)

end Qdma
