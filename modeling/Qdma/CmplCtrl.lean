/-
# Completion control

`qdma_queue_cmpl_ctrl` sets the trigger mode, the timer, the counter and the flags of a
completion ring, or reads them back from the CIDX doorbell, and `descq_wrb_cidx_update` puts
them into every doorbell: the index and five fields in one word.

The counter is put where the timer goes (`V_WRB_CIDX_UPD_TIMER_IDX` stands twice in the macro
chain).  `wrbCidxWord_decode` says what the device reads for every word, `cmpl_ctrl_iff` when
that is what was set.
-/
import Qdma.Contexts
import Qdma.Device

namespace Qdma

open BitField

/-! ## The doorbell word -/

/-- `S_WRB_CIDX_UPD_SW_CIDX`. -/
def wrbCidxUpdSwCidx : Field := ⟨0, 16⟩

/-- `S_WRB_CIDX_UPD_CNTER_IDX`. -/
def wrbCidxUpdCnterIdx : Field := ⟨16, 4⟩

/-- `S_WRB_CIDX_UPD_TIMER_IDX`. -/
def wrbCidxUpdTimerIdx : Field := ⟨20, 4⟩

/-- `S_WRB_CIDX_UPD_TRIG_MODE`. -/
def wrbCidxUpdTrigMode : Field := ⟨24, 3⟩

/-- `S_WRB_CIDX_UPD_EN_STAT_DESC`. -/
def wrbCidxUpdEnStatDesc : Field := ⟨27, 1⟩

/-- `S_WRB_CIDX_UPD_EN_INT`. -/
def wrbCidxUpdEnInt : Field := ⟨28, 1⟩

/-- The word `descq_wrb_cidx_update` writes. -/
def wrbCidxWord (conf : QueueConf) (cidx : ℕ) : ℕ :=
  u32 (cidx ||| (wrbCidxUpdEnInt.put conf.irqEn.toNat |||
    wrbCidxUpdEnStatDesc.put conf.cmplStatEn.toNat |||
    wrbCidxUpdTrigMode.put conf.cmplTrigMode |||
    wrbCidxUpdTimerIdx.put conf.cmplTimerIdx |||
    wrbCidxUpdTimerIdx.put conf.cmplCntThIdx))

/-- `QDMA_REG_WRB_CIDX_BASE`, of a PF and of a VF, with a register every `QDMA_REG_PIDX_STEP`. -/
def wrbCidxReg (vf : Bool) (qidx : ℕ) : ℕ := (if vf then 0x300C else 0x640C) + qidx * 0x10

/-- The fields of the word. -/
@[ext]
structure WrbCidxUpd where
  swCidx : ℕ
  cnterIdx : ℕ
  timerIdx : ℕ
  trigMode : ℕ
  enStatDesc : ℕ
  enInt : ℕ
  deriving DecidableEq

/-- What the device makes of it. -/
def WrbCidxUpd.decode (w : ℕ) : WrbCidxUpd where
  swCidx := wrbCidxUpdSwCidx.get w
  cnterIdx := wrbCidxUpdCnterIdx.get w
  timerIdx := wrbCidxUpdTimerIdx.get w
  trigMode := wrbCidxUpdTrigMode.get w
  enStatDesc := wrbCidxUpdEnStatDesc.get w
  enInt := wrbCidxUpdEnInt.get w

/-- What the driver means. -/
def WrbCidxUpd.intended (conf : QueueConf) (cidx : ℕ) : WrbCidxUpd where
  swCidx := cidx
  cnterIdx := conf.cmplCntThIdx
  timerIdx := conf.cmplTimerIdx
  trigMode := conf.cmplTrigMode
  enStatDesc := conf.cmplStatEn.toNat
  enInt := conf.irqEn.toNat

/-! ## Set and get -/

/-- `struct qdma_cmpl_ctrl`. -/
@[ext]
structure QdmaCmplCtrl where
  cntThIdx : Fin 16 := 0
  timerIdx : Fin 16 := 0
  triggerMode : Fin 8 := 0
  enStatDesc : Bool := false
  cmplEnIntr : Bool := false
  deriving DecidableEq

/-- A device with its registers. -/
structure CmplDev where
  dev : QdmaDev
  regs : ℕ → ℕ := fun _ => 0

/-- The CIDX register of queue `id`. -/
def CmplDev.cidxReg (s : CmplDev) (id : ℕ) : ℕ := wrbCidxReg s.dev.vf (s.dev.descq id).conf.qidx

/-- The configuration with the completion control `cctrl`. -/
def QueueConf.setCmpl (conf : QueueConf) (cctrl : QdmaCmplCtrl) : QueueConf :=
  { conf with
    cmplTrigMode := cctrl.triggerMode
    cmplTimerIdx := cctrl.timerIdx
    cmplCntThIdx := cctrl.cntThIdx
    irqEn := cctrl.cmplEnIntr
    cmplStatEn := cctrl.enStatDesc }

/-- The completion control in a word of the CIDX register. -/
def QdmaCmplCtrl.ofWord (val : ℕ) : QdmaCmplCtrl where
  triggerMode := Fin.ofNat 8 (wrbCidxUpdTrigMode.get val)
  timerIdx := Fin.ofNat 16 (wrbCidxUpdTimerIdx.get val)
  cntThIdx := Fin.ofNat 16 (wrbCidxUpdCnterIdx.get val)
  cmplEnIntr := val.testBit wrbCidxUpdEnInt.shift
  enStatDesc := val.testBit wrbCidxUpdEnStatDesc.shift

/-- `descq_wrb_cidx_update`, with the register it writes. -/
def CmplDev.wrbCidxUpdate (s : CmplDev) (id cidx : ℕ) : CmplDev where
  dev := s.dev.setDescq id (descqWrbCidxUpdate (s.dev.descq id) cidx)
  regs := Function.update s.regs (s.cidxReg id) (wrbCidxWord (s.dev.descq id).conf cidx)

/-- `qdma_queue_cmpl_ctrl`: the device, `cctrl`, and the answer. -/
def CmplDev.queueCmplCtrl (s : CmplDev) (id : ℕ) (cctrl : QdmaCmplCtrl) (set : Bool) :
    CmplDev × QdmaCmplCtrl × ℤ :=
  if s.dev.Has id then
    let d := s.dev.descq id
    if set then
      let s := { s with dev := s.dev.setDescq id { d with conf := d.conf.setCmpl cctrl } }
      (s.wrbCidxUpdate id d.cidxWrbPend, cctrl, 0)
    else
      let cctrl := QdmaCmplCtrl.ofWord (s.regs (s.cidxReg id))
      ({ s with dev := s.dev.setDescq id { d with conf := d.conf.setCmpl cctrl } }, cctrl, 0)
  else (s, cctrl, qdmaErrInvalidQidx)

/-! ## What the device reads -/

/-- What stands in the word: the counter's place is empty. -/
def wrbCidxFields (conf : QueueConf) (cidx : ℕ) : List (Field × ℕ) :=
  [(wrbCidxUpdSwCidx, cidx), (wrbCidxUpdEnInt, conf.irqEn.toNat),
    (wrbCidxUpdEnStatDesc, conf.cmplStatEn.toNat), (wrbCidxUpdTrigMode, conf.cmplTrigMode),
    (wrbCidxUpdTimerIdx, conf.cmplTimerIdx ||| conf.cmplCntThIdx), (wrbCidxUpdCnterIdx, 0)]

/-- The places. -/
def wrbCidxUpd : List Field :=
  [wrbCidxUpdSwCidx, wrbCidxUpdEnInt, wrbCidxUpdEnStatDesc, wrbCidxUpdTrigMode,
    wrbCidxUpdTimerIdx, wrbCidxUpdCnterIdx]

/-- The three indices are as wide as declared. -/
structure QueueConf.CmplWidths (conf : QueueConf) : Prop where
  cmplTimerIdx : conf.cmplTimerIdx < 2 ^ 4
  cmplCntThIdx : conf.cmplCntThIdx < 2 ^ 4
  cmplTrigMode : conf.cmplTrigMode < 2 ^ 3

theorem setCmpl_widths (conf : QueueConf) (cctrl : QdmaCmplCtrl) :
    (conf.setCmpl cctrl).CmplWidths :=
  ⟨cctrl.timerIdx.isLt, cctrl.cntThIdx.isLt, cctrl.triggerMode.isLt⟩

theorem wrbCidxFields_fits {conf : QueueConf} (hw : conf.CmplWidths) {cidx : ℕ}
    (hcidx : cidx < 2 ^ 16) :
    Fits (wrbCidxFields conf cidx) := by
  have hbool : ∀ b : Bool, b.toNat < 2 ^ 1 := fun b => Bool.toNat_lt b
  unfold Fits wrbCidxFields
  simp only [List.forall_mem_cons, List.not_mem_nil, false_imp_iff, implies_true, and_true]
  exact ⟨hcidx, hbool _, hbool _, hw.cmplTrigMode,
    Nat.or_lt_two_pow hw.cmplTimerIdx hw.cmplCntThIdx, by decide⟩

/-- Two values at one place are their `|||` there. -/
theorem put_or_put (f : Field) (v w : ℕ) : f.put v ||| f.put w = f.put (v ||| w) :=
  (Nat.shiftLeft_or_distrib (a := v) (b := w) (i := f.shift)).symm

/-- The word by its fields. -/
theorem wrbCidxWord_eq {conf : QueueConf} (hw : conf.CmplWidths) {cidx : ℕ}
    (hcidx : cidx < 2 ^ 16) :
    wrbCidxWord conf cidx = pack (wrbCidxFields conf cidx) := by
  have hfits := wrbCidxFields_fits hw hcidx
  have hlt : u32 (pack (wrbCidxFields conf cidx)) = pack (wrbCidxFields conf cidx) := by
    refine u32_pack hfits ?_
    show ∀ f ∈ wrbCidxUpd, f.shift + f.width ≤ 32
    decide
  have hempty : wrbCidxUpdCnterIdx.put 0 = 0 := Nat.zero_shiftLeft _
  have hidx : wrbCidxUpdSwCidx.put cidx = cidx := Nat.shiftLeft_zero
  rw [← hlt]
  unfold wrbCidxWord wrbCidxFields pack
  simp only [List.foldl_cons, List.foldl_nil, Nat.zero_or, hempty, Nat.or_zero, hidx, ← put_or_put,
    Nat.or_assoc]

/-- **What the device reads**: no counter, and a timer that is mixed with it. -/
theorem wrbCidxWord_decode {conf : QueueConf} (hw : conf.CmplWidths) {cidx : ℕ}
    (hcidx : cidx < 2 ^ 16) :
    WrbCidxUpd.decode (wrbCidxWord conf cidx)
      = { WrbCidxUpd.intended conf cidx with
          cnterIdx := 0
          timerIdx := conf.cmplTimerIdx ||| conf.cmplCntThIdx } := by
  have hget := fun k {f v} => @get_fields _ (wrbCidxFields_fits hw hcidx)
    (show wrbCidxUpd.Pairwise Field.Apart by decide) k f v
  rw [wrbCidxWord_eq hw hcidx]
  exact WrbCidxUpd.ext (hget 0 rfl) (hget 5 rfl) (hget 4 rfl) (hget 3 rfl) (hget 2 rfl) (hget 1 rfl)

/-! ## Set, then get -/

/-- Setting the completion control of a queue that is there. -/
theorem queueCmplCtrl_set {s : CmplDev} {id : ℕ} (hid : s.dev.Has id) (cctrl : QdmaCmplCtrl) :
    ∃ s', s.queueCmplCtrl id cctrl true = (s', cctrl, 0) ∧ s'.dev.Has id ∧
      (s'.dev.descq id).conf = (s.dev.descq id).conf.setCmpl cctrl ∧
      s'.regs = Function.update s.regs (s.cidxReg id)
        (wrbCidxWord ((s.dev.descq id).conf.setCmpl cctrl) (s.dev.descq id).cidxWrbPend) ∧
      s'.cidxReg id = s.cidxReg id := by
  refine ⟨_, by unfold CmplDev.queueCmplCtrl; rw [if_pos hid]; rfl, ?_⟩
  unfold CmplDev.wrbCidxUpdate CmplDev.cidxReg QdmaDev.Has
  simp only [setDescq_self]
  exact ⟨hid, rfl, rfl, rfl⟩

/-- Reading it is reading the register. -/
theorem queueCmplCtrl_get {s : CmplDev} {id : ℕ} (hid : s.dev.Has id) (cctrl : QdmaCmplCtrl) :
    (s.queueCmplCtrl id cctrl false).2 = (QdmaCmplCtrl.ofWord (s.regs (s.cidxReg id)), 0) := by
  unfold CmplDev.queueCmplCtrl
  rw [if_pos hid]
  rfl

/-- A flag read by its bit is the field of one bit. -/
theorem testBit_eq_get {f : Field} (hf : f.width = 1) (w : ℕ) {b : Bool}
    (h : f.get w = b.toNat) : w.testBit f.shift = b := by
  have hbit := Field.get_testBit f w 0
  rw [h, hf, Nat.add_zero] at hbit
  cases b
  · exact hbit.symm
  · exact hbit.symm

/-- What is read back of a word that was written. -/
theorem ofWord_wrbCidxWord (conf : QueueConf) (cctrl : QdmaCmplCtrl) {cidx : ℕ}
    (hcidx : cidx < 2 ^ 16) :
    QdmaCmplCtrl.ofWord (wrbCidxWord (conf.setCmpl cctrl) cidx)
      = { cctrl with
          cntThIdx := 0
          timerIdx := Fin.ofNat 16 (cctrl.timerIdx.val ||| cctrl.cntThIdx.val) } := by
  have hdec := wrbCidxWord_decode (setCmpl_widths conf cctrl) hcidx
  have htrig := congrArg WrbCidxUpd.trigMode hdec
  have htimer := congrArg WrbCidxUpd.timerIdx hdec
  have hcnt := congrArg WrbCidxUpd.cnterIdx hdec
  have hstat := congrArg WrbCidxUpd.enStatDesc hdec
  have hint := congrArg WrbCidxUpd.enInt hdec
  refine QdmaCmplCtrl.ext (congrArg (Fin.ofNat 16) hcnt) (congrArg (Fin.ofNat 16) htimer) ?_
    (testBit_eq_get rfl _ hstat) (testBit_eq_get rfl _ hint)
  refine (congrArg (Fin.ofNat 8) htrig).trans (Fin.ext ?_)
  exact Nat.mod_eq_of_lt cctrl.triggerMode.isLt

/-- **Set and get agree** for a queue: both succeed, get returns what was set, and the word in
the doorbell decodes to it and to the index. -/
structure CmplCtrlAgrees (s : CmplDev) (id : ℕ) (cctrl old : QdmaCmplCtrl) : Prop where
  set : (s.queueCmplCtrl id cctrl true).2.2 = 0
  get : ((s.queueCmplCtrl id cctrl true).1.queueCmplCtrl id old false).2 = (cctrl, 0)
  word : WrbCidxUpd.decode ((s.queueCmplCtrl id cctrl true).1.regs (s.cidxReg id))
    = { swCidx := (s.dev.descq id).cidxWrbPend
        cnterIdx := cctrl.cntThIdx
        timerIdx := cctrl.timerIdx
        trigMode := cctrl.triggerMode
        enStatDesc := cctrl.enStatDesc.toNat
        enInt := cctrl.cmplEnIntr.toNat }

/-- **When they agree**: exactly if the counter index is 0. -/
theorem cmpl_ctrl_iff {s : CmplDev} {id : ℕ} (hid : s.dev.Has id)
    (hpend : (s.dev.descq id).cidxWrbPend < 65536) (cctrl old : QdmaCmplCtrl) :
    CmplCtrlAgrees s id cctrl old ↔ cctrl.cntThIdx = 0 := by
  obtain ⟨s1, hset, hid1, -, hregs, hreg⟩ := queueCmplCtrl_set hid cctrl
  have hread : s1.regs (s.cidxReg id)
      = wrbCidxWord ((s.dev.descq id).conf.setCmpl cctrl) (s.dev.descq id).cidxWrbPend := by
    rw [hregs, Function.update_self]
  have hget := queueCmplCtrl_get hid1 old
  have hdec := wrbCidxWord_decode (setCmpl_widths (s.dev.descq id).conf cctrl) hpend
  rw [hreg, hread, ofWord_wrbCidxWord _ _ hpend] at hget
  constructor
  -- the counter that get returns is always 0
  · intro h
    have hcctrl := h.get
    rw [hset, hget] at hcctrl
    exact (congrArg (fun r => r.1.cntThIdx) hcctrl).symm
  · intro hzero
    have hsame : Fin.ofNat 16 (cctrl.timerIdx.val ||| cctrl.cntThIdx.val) = cctrl.timerIdx := by
      rw [hzero]
      apply Fin.ext
      show (cctrl.timerIdx.val ||| 0) % 16 = _
      rw [Nat.or_zero, Nat.mod_eq_of_lt cctrl.timerIdx.isLt]
    constructor
    · rw [hset]
    · rw [hset, hget, hsame]
      exact congrArg (·, 0) (QdmaCmplCtrl.ext hzero.symm rfl rfl rfl rfl)
    · rw [hset, hread, hdec]
      refine WrbCidxUpd.ext rfl ?_ ?_ rfl rfl rfl
      · exact (congrArg Fin.val hzero).symm
      · show cctrl.timerIdx.val ||| cctrl.cntThIdx.val = _
        rw [hzero]
        exact Nat.or_zero _

/-- A device with one pair of queues, the C2H queue of which is enabled. -/
def cmplDev : CmplDev :=
  { dev :=
      { qmax := 1, numVecs := 0, dvecStartIdx := 2, intrCoalEn := false, threadCnt := 1
        descq := fun id => { enabled := id == 1 }
        wrk := fun _ => {}
        wb := fun _ => {}
        intrList := fun _ => []
        intrListCnt := fun _ => 0 } }

/-- Timer 3 and no counter. -/
theorem cmpl_ctrl_timer :
    CmplCtrlAgrees cmplDev 1 { timerIdx := 3, triggerMode := 4 } {} ↔
      (({ timerIdx := 3, triggerMode := 4 } : QdmaCmplCtrl)).cntThIdx = 0 :=
  cmpl_ctrl_iff (by decide) (by decide) _ _

/-- **The counter is in the timer's place**: set with timer 1 and counter 2, the doorbell has
timer 3 and counter 0, and that is what get returns. -/
theorem counter_moves_timer :
    WrbCidxUpd.decode
        ((cmplDev.queueCmplCtrl 1 { cntThIdx := 2, timerIdx := 1 } true).1.regs (cmplDev.cidxReg 1))
        = ⟨0, 0, 3, 0, 0, 0⟩ ∧
      ((cmplDev.queueCmplCtrl 1 { cntThIdx := 2, timerIdx := 1 } true).1.queueCmplCtrl 1 {} false).2
        = ({ cntThIdx := 0, timerIdx := 3 }, 0) ∧
      ¬ CmplCtrlAgrees cmplDev 1 { cntThIdx := 2, timerIdx := 1 } {} := by
  have hget : ((cmplDev.queueCmplCtrl 1 { cntThIdx := 2, timerIdx := 1 } true).1.queueCmplCtrl 1 {}
      false).2 = ({ cntThIdx := 0, timerIdx := 3 }, 0) := by decide
  refine ⟨by decide, hget, ?_⟩
  intro h
  exact absurd (hget.symm.trans h.get) (by decide)

end Qdma
