/-
# The global registers

All functions of a device share its global registers: the tables of ring sizes, buffer sizes, timer
counts and count thresholds, from which a queue selects by index, the accumulation of writebacks,
and the control of the two memory-mapped channels.  A driver's master PF fills them with defaults
(`hw_set_global_csr`), function 0 may set them (`qdma_global_csr_set`), every PF may set the
accumulation (`qdma_set_wrb_acc`) or write any register it likes, and whoever starts a queue reads
them (`qdma_global_csr_get`).

`RegOp.sets` says what an operation sets, register by register, without the addresses.
`csr_get_settings`: after any operations of any functions, in any order, what is read is what was
last set.  `ring_agrees_iff`: the ring of a queue that was started on these tables is as long as the
device takes it to be until another size is set in its place.
-/
import Qdma.ErrStat
import Qdma.Geometry
import Qdma.IndirectCtxt
import Qdma.RegFile

namespace Qdma

open RegFile Qdma.Reg

/-! ## The registers -/

/-- `QDMA_REG_GLBL_RNG_SZ_BASE`. -/
def qdmaRegGlblRngSzBase : ℕ := 0x204

/-- `QDMA_REG_GLBL_WB_ACC`. -/
def qdmaRegGlblWbAcc : ℕ := 0x250

/-- `QDMA_REG_C2H_TIMER_CNT_BASE`. -/
def qdmaRegC2hTimerCntBase : ℕ := 0xA00

/-- `QDMA_REG_C2H_CNT_TH_BASE`. -/
def qdmaRegC2hCntThBase : ℕ := 0xA40

/-- `QDMA_REG_C2H_BUF_SZ_BASE`. -/
def qdmaRegC2hBufSzBase : ℕ := 0xAB0

/-- `QDMA_REG_C2H_MM_CONTROL_BASE`. -/
def qdmaRegC2hMmControlBase : ℕ := 0x1004

/-- `QDMA_REG_H2C_MM_CONTROL_BASE`. -/
def qdmaRegH2cMmControlBase : ℕ := 0x1204

/-- `QDMA_REG_MM_CONTROL_STEP`. -/
def qdmaRegMmControlStep : ℕ := 0x100

/-- `QDMA_REG_MM_CONTROL_RUN`. -/
def qdmaRegMmControlRun : Word := 1#32

/-- `mm_channel_max`, which `qdma_device_attributes_get` sets. -/
def mmChannelMax : ℕ := 1

/-- A table: its size is `QDMA_GLOBAL_CSR_ARRAY_SZ`, and the `COUNT` of its registers. -/
abbrev CsrTable := Fin 16 → Word

/-- All of `struct global_csr_conf`. -/
@[ext] structure GlobalCsr where
  ringSz : CsrTable
  wbAcc : Word
  c2hTimerCnt : CsrTable
  c2hCntTh : CsrTable
  c2hBufSz : CsrTable

/-- A loop that writes a table. -/
def tableWrites (base : ℕ) (t : CsrTable) : List (ℕ × Word) := row base 4 (List.ofFn t)

/-- `hw_set_global_csr`. -/
def hwSetGlobalCsr : List (ℕ × Word) :=
  [(qdmaRegGlblWbAcc, 0x1#32)] ++ tableWrites qdmaRegGlblRngSzBase (fun _ => 257#32)
    ++ tableWrites qdmaRegC2hBufSzBase (fun _ => BitVec.ofNat 32 pageSize)
    ++ tableWrites qdmaRegC2hTimerCntBase (fun _ => 0x1#32)
    ++ tableWrites qdmaRegC2hCntThBase (fun _ => 0x1#32)

/-- `qdma_global_csr_set` of a PF: the writes, and what it returns. -/
def qdmaGlobalCsrSet (funcId : ℕ) (csr : GlobalCsr) : List (ℕ × Word) × ℤ :=
  if funcId ≠ 0 then ([], einval)
  else
    ([(qdmaRegGlblWbAcc, csr.wbAcc)] ++ tableWrites qdmaRegGlblRngSzBase csr.ringSz
      ++ tableWrites qdmaRegC2hBufSzBase csr.c2hBufSz
      ++ tableWrites qdmaRegC2hTimerCntBase csr.c2hTimerCnt
      ++ tableWrites qdmaRegC2hCntThBase csr.c2hCntTh, 0)

/-- `qdma_set_wrb_acc`. -/
def qdmaSetWrbAcc (wrbAcc : Word) : List (ℕ × Word) := [(qdmaRegGlblWbAcc, wrbAcc)]

/-- The register of `hw_mm_channel_enable` and `hw_mm_channel_disable`. -/
def mmControl (channel : ℕ) (c2h : Bool) : ℕ :=
  (if c2h then qdmaRegH2cMmControlBase else qdmaRegC2hMmControlBase)
    + channel * qdmaRegMmControlStep

/-- `hw_mm_channel_enable`. -/
def hwMmChannelEnable (channel : ℕ) (c2h : Bool) : List (ℕ × Word) :=
  [(mmControl channel c2h, qdmaRegMmControlRun)]

/-- `hw_mm_channel_disable`. -/
def hwMmChannelDisable (channel : ℕ) (c2h : Bool) : List (ℕ × Word) :=
  [(mmControl channel c2h, 0#32)]

/-- `DMA_TO_DEVICE`. -/
def dmaToDevice : ℕ := 1

/-- `DMA_FROM_DEVICE`. -/
def dmaFromDevice : ℕ := 2

/-- What `qdma_device_init` writes at its end. -/
def deviceInitWrites (masterPf : Bool) : List (ℕ × Word) :=
  if masterPf then
    hwSetGlobalCsr ++ (List.range mmChannelMax).flatMap (fun i =>
      hwMmChannelEnable i true ++ hwMmChannelEnable i false)
  else []

/-- What `qdma_device_cleanup` writes.  The directions are taken for booleans. -/
def deviceCleanupWrites (funcId : ℕ) : List (ℕ × Word) :=
  if funcId = 0 then
    (List.range mmChannelMax).flatMap (fun i =>
      hwMmChannelDisable i (dmaToDevice ≠ 0) ++ hwMmChannelDisable i (dmaFromDevice ≠ 0))
  else []

/-- A loop that reads a table. -/
def readTable (r : ℕ → Word) (base : ℕ) : CsrTable := fun i => r (base + 4 * i)

/-- `qdma_global_csr_get` of a PF, with `qdma_csr_read_wbacc`, `qdma_csr_read_rngsz`,
`qdma_csr_read_bufsz`, `qdma_csr_read_timer_cnt` and `qdma_csr_read_cnt_thresh`. -/
def qdmaGlobalCsrGet (r : ℕ → Word) : GlobalCsr where
  wbAcc := r qdmaRegGlblWbAcc
  ringSz := readTable r qdmaRegGlblRngSzBase
  c2hBufSz := readTable r qdmaRegC2hBufSzBase
  c2hTimerCnt := readTable r qdmaRegC2hTimerCntBase
  c2hCntTh := readTable r qdmaRegC2hCntThBase

/-- `qdma_get_wrb_acc`. -/
def qdmaGetWrbAcc (r : ℕ → Word) : Word := r qdmaRegGlblWbAcc

/-! ## The other registers -/

/-- The registers the driver of a PF writes for anything else. -/
inductive OtherReg where
  /-- `hw_set_fmap` -/
  | fmap (funcId : Fin 256)
  /-- `hw_indirect_ctext_prog`: data, mask and command -/
  | indCtxt (i : Fin 9)
  /-- the errors of `err_stat_info`, their masks, and `QDMA_C2H_ERR_INT` -/
  | err (i : Fin 13)
  /-- the four indices of a queue -/
  | index (kind : Fin 4) (qidx : ℕ)
  /-- the mailbox, with `QDMA_REG_FLR_STATUS` behind it -/
  | mbox (off : Fin 0x1000)

/-- The addresses of the errors; the mask of a register comes behind it. -/
def errRegs : List ℕ :=
  [qdmaRegGlblErrStat, qdmaGlblDscErrSts, qdmaGlblTrqErrSts, qdmaRegC2hErrStat, qdmaC2hFatalErrStat,
    qdmaH2cErrStat].flatMap (fun a => [a, a + 4]) ++ [qdmaC2hErrInt]

/-- The address of such a register. -/
def OtherReg.addr : OtherReg → ℕ
  | .fmap funcId => 0x400 + funcId * 4
  | .indCtxt i => 0x804 + 4 * i
  | .err i => errRegs.getD i 0
  | .index kind qidx => 0x6400 + 4 * kind + qidx * 0x10
  | .mbox off => 0x2400 + off

/-! ## Operations -/

/-- What the functions of a device do to its registers. -/
inductive RegOp where
  | deviceInit (masterPf : Bool)
  | deviceCleanup (funcId : ℕ)
  | globalCsrSet (funcId : ℕ) (csr : GlobalCsr)
  | setWrbAcc (wrbAcc : Word)
  /-- `qdma_device_write_config_register` -/
  | writeConfig (regAddr : ℕ) (val : Word)
  | other (reg : OtherReg) (val : Word)

/-- The writes of an operation. -/
def RegOp.writes : RegOp → List (ℕ × Word)
  | .deviceInit masterPf => deviceInitWrites masterPf
  | .deviceCleanup funcId => deviceCleanupWrites funcId
  | .globalCsrSet funcId csr => (qdmaGlobalCsrSet funcId csr).1
  | .setWrbAcc wrbAcc => qdmaSetWrbAcc wrbAcc
  | .writeConfig regAddr val => [(regAddr, val)]
  | .other reg val => [(reg.addr, val)]

/-- The registers after some operations. -/
def afterOps (r : ℕ → Word) (ops : List RegOp) : ℕ → Word := puts r (ops.flatMap RegOp.writes)

/-! ## What is set -/

/-- What the global registers are for. -/
inductive Setting where
  | wbAcc
  | ringSz (i : Fin 16)
  | c2hBufSz (i : Fin 16)
  | c2hTimerCnt (i : Fin 16)
  | c2hCntTh (i : Fin 16)
  | h2cRun
  | c2hRun
  deriving DecidableEq

/-- Where a setting is found. -/
def Setting.addr : Setting → ℕ
  | .wbAcc => qdmaRegGlblWbAcc
  | .ringSz i => qdmaRegGlblRngSzBase + 4 * i
  | .c2hBufSz i => qdmaRegC2hBufSzBase + 4 * i
  | .c2hTimerCnt i => qdmaRegC2hTimerCntBase + 4 * i
  | .c2hCntTh i => qdmaRegC2hCntThBase + 4 * i
  | .h2cRun => qdmaRegH2cMmControlBase
  | .c2hRun => qdmaRegC2hMmControlBase

/-- The defaults of a master PF. -/
def Setting.default : Setting → Word
  | .ringSz _ => 257#32
  | .c2hBufSz _ => 4096#32
  | _ => 1#32

/-- The member of `struct global_csr_conf` for a setting. -/
def GlobalCsr.setting (csr : GlobalCsr) : Setting → Option Word
  | .wbAcc => some csr.wbAcc
  | .ringSz i => some (csr.ringSz i)
  | .c2hBufSz i => some (csr.c2hBufSz i)
  | .c2hTimerCnt i => some (csr.c2hTimerCnt i)
  | .c2hCntTh i => some (csr.c2hCntTh i)
  | .h2cRun | .c2hRun => none

/-- **What an operation sets.**  The cleanup of function 0 stops one channel of the two. -/
def RegOp.sets (k : Setting) : RegOp → Option Word
  | .deviceInit masterPf => if masterPf then some k.default else none
  | .deviceCleanup funcId => if funcId = 0 ∧ k = .h2cRun then some 0#32 else none
  | .globalCsrSet funcId csr => if funcId = 0 then csr.setting k else none
  | .setWrbAcc wrbAcc => if k = .wbAcc then some wrbAcc else none
  | .writeConfig regAddr val => if k.addr = regAddr then some val else none
  | .other _ _ => none

/-- The last value that was set, or else what there was before. -/
def lastSet (before : Setting → Word) (ops : List RegOp) (k : Setting) : Word :=
  (ops.reverse.findSome? (RegOp.sets k)).getD (before k)

/-- The tables with these settings. -/
def GlobalCsr.ofSettings (s : Setting → Word) : GlobalCsr where
  wbAcc := s .wbAcc
  ringSz := fun i => s (.ringSz i)
  c2hBufSz := fun i => s (.c2hBufSz i)
  c2hTimerCnt := fun i => s (.c2hTimerCnt i)
  c2hCntTh := fun i => s (.c2hCntTh i)

/-! ## Settings are kept apart -/

/-- The addresses of settings. -/
def IsGlobal (a : ℕ) : Prop :=
  0x204 ≤ a ∧ a < 0x244 ∨ a = 0x250 ∨ 0xA00 ≤ a ∧ a < 0xA80 ∨ 0xAB0 ≤ a ∧ a < 0xAF0 ∨
    a = 0x1004 ∨ a = 0x1204

instance IsGlobal.decidable (a : ℕ) : Decidable (IsGlobal a) :=
  inferInstanceAs (Decidable (_ ∨ _ ∨ _ ∨ _ ∨ _ ∨ _))

theorem Setting.isGlobal (k : Setting) : IsGlobal k.addr := by
  unfold IsGlobal
  cases k with
  | wbAcc => exact .inr (.inl rfl)
  | h2cRun => exact .inr (.inr (.inr (.inr (.inr rfl))))
  | c2hRun => exact .inr (.inr (.inr (.inr (.inl rfl))))
  | ringSz i => simp only [Setting.addr, qdmaRegGlblRngSzBase]; omega
  | c2hBufSz i => simp only [Setting.addr, qdmaRegC2hBufSzBase]; omega
  | c2hTimerCnt i => simp only [Setting.addr, qdmaRegC2hTimerCntBase]; omega
  | c2hCntTh i => simp only [Setting.addr, qdmaRegC2hCntThBase]; omega

/-- **No other register is that of a setting.** -/
theorem OtherReg.not_isGlobal (reg : OtherReg) : ¬ IsGlobal reg.addr := by
  cases reg with
  | fmap funcId => simp only [OtherReg.addr, IsGlobal]; omega
  | indCtxt i => simp only [OtherReg.addr, IsGlobal]; omega
  | err i => revert i; decide
  | index kind qidx => simp only [OtherReg.addr, IsGlobal]; omega
  | mbox off => simp only [OtherReg.addr, IsGlobal]; omega

theorem lastPut_table (base : ℕ) (t : CsrTable) (i : Fin 16) :
    lastPut (tableWrites base t) (base + 4 * i) = some (t i) := by
  unfold tableWrites
  rw [lastPut_row (by decide), List.getElem?_ofFn, dif_pos i.isLt]

theorem lastPut_elsewhere {base : ℕ} {t : CsrTable} {a : ℕ} (h : a < base ∨ base + 64 ≤ a) :
    lastPut (tableWrites base t) a = none := by
  refine lastPut_row_none (fun i hi => ?_)
  rw [List.length_ofFn] at hi
  omega

/-- The writes of `qdma_global_csr_set` and `hw_set_global_csr`. -/
def GlobalCsr.writes (csr : GlobalCsr) : List (ℕ × Word) :=
  [(qdmaRegGlblWbAcc, csr.wbAcc)] ++ tableWrites qdmaRegGlblRngSzBase csr.ringSz
    ++ tableWrites qdmaRegC2hBufSzBase csr.c2hBufSz
    ++ tableWrites qdmaRegC2hTimerCntBase csr.c2hTimerCnt
    ++ tableWrites qdmaRegC2hCntThBase csr.c2hCntTh

/-- **They set the tables**, and nothing else. -/
theorem GlobalCsr.lastPut_writes (csr : GlobalCsr) (k : Setting) :
    lastPut csr.writes k.addr = csr.setting k := by
  unfold GlobalCsr.writes
  simp only [lastPut_append, qdmaRegGlblWbAcc, qdmaRegGlblRngSzBase, qdmaRegC2hBufSzBase,
    qdmaRegC2hTimerCntBase, qdmaRegC2hCntThBase]
  cases k with
  | wbAcc =>
      show _ = some csr.wbAcc
      simp (disch := decide) only [Setting.addr, qdmaRegGlblWbAcc, lastPut_elsewhere,
        Option.none_or]
      rfl
  | ringSz i =>
      simp (disch := omega) only [Setting.addr, qdmaRegGlblRngSzBase, lastPut_elsewhere,
        lastPut_table, Option.none_or, Option.some_or]
      rfl
  | c2hBufSz i =>
      simp (disch := omega) only [Setting.addr, qdmaRegC2hBufSzBase, lastPut_elsewhere,
        lastPut_table, Option.none_or, Option.some_or]
      rfl
  | c2hTimerCnt i =>
      simp (disch := omega) only [Setting.addr, qdmaRegC2hTimerCntBase, lastPut_elsewhere,
        lastPut_table, Option.none_or, Option.some_or]
      rfl
  | c2hCntTh i =>
      simp (disch := omega) only [Setting.addr, qdmaRegC2hCntThBase, lastPut_elsewhere,
        lastPut_table, Option.none_or, Option.some_or]
      rfl
  | h2cRun =>
      simp (disch := decide) only [Setting.addr, qdmaRegH2cMmControlBase, lastPut_elsewhere,
        Option.none_or]
      rfl
  | c2hRun =>
      simp (disch := decide) only [Setting.addr, qdmaRegC2hMmControlBase, lastPut_elsewhere,
        Option.none_or]
      rfl

/-- No two settings share a register. -/
theorem Setting.addr_injective : Function.Injective Setting.addr := by
  intro k k' h
  cases k <;> cases k' <;>
    simp only [Setting.addr, qdmaRegGlblWbAcc, qdmaRegGlblRngSzBase, qdmaRegC2hBufSzBase,
      qdmaRegC2hTimerCntBase, qdmaRegC2hCntThBase, qdmaRegH2cMmControlBase,
      qdmaRegC2hMmControlBase, Setting.ringSz.injEq, Setting.c2hBufSz.injEq,
      Setting.c2hTimerCnt.injEq, Setting.c2hCntTh.injEq] at h ⊢ <;> omega

/-- A write to the register of a setting. -/
theorem lastPut_setting (k' : Setting) (v : Word) (k : Setting) :
    lastPut [(k'.addr, v)] k.addr = if k' = k then some v else none :=
  if_congr Setting.addr_injective.eq_iff rfl rfl

/-- **What an operation writes is what it sets.** -/
theorem RegOp.lastPut_writes (op : RegOp) (k : Setting) :
    lastPut op.writes k.addr = op.sets k := by
  cases op with
  | deviceInit masterPf =>
      cases masterPf with
      | false => rfl
      | true =>
          -- the tables, and then the two channels
          show lastPut ((GlobalCsr.ofSettings Setting.default).writes
            ++ ([(Setting.h2cRun.addr, 1#32)] ++ [(Setting.c2hRun.addr, 1#32)])) k.addr
              = some k.default
          rw [lastPut_append, lastPut_append, GlobalCsr.lastPut_writes, lastPut_setting,
            lastPut_setting]
          cases k <;> rfl
  | deviceCleanup funcId =>
      by_cases h0 : funcId = 0
      · subst h0
        show lastPut ([(Setting.h2cRun.addr, 0#32)] ++ [(Setting.h2cRun.addr, 0#32)]) k.addr = _
        rw [lastPut_append, lastPut_setting]
        cases k <;> rfl
      · show lastPut (deviceCleanupWrites funcId) k.addr = if _ then _ else _
        unfold deviceCleanupWrites
        rw [if_neg h0, if_neg (fun h => h0 h.1)]
        rfl
  | globalCsrSet funcId csr =>
      by_cases h0 : funcId = 0
      · subst h0
        exact csr.lastPut_writes k
      · show lastPut (qdmaGlobalCsrSet funcId csr).1 k.addr = if _ then _ else _
        unfold qdmaGlobalCsrSet
        rw [if_pos h0, if_neg h0]
        rfl
  | setWrbAcc wrbAcc =>
      show lastPut [(Setting.wbAcc.addr, wrbAcc)] k.addr = if _ then _ else _
      rw [lastPut_setting]
      exact if_congr eq_comm rfl rfl
  | writeConfig regAddr val => exact if_congr eq_comm rfl rfl
  | other reg val =>
      refine lastPut_eq_none (fun w hw heq => reg.not_isGlobal ?_)
      rw [List.mem_singleton.mp hw] at heq
      change reg.addr = k.addr at heq
      rw [heq]
      exact k.isGlobal

/-- What an operation leaves in a register. -/
theorem afterOps_apply (r : ℕ → Word) (ops : List RegOp) (k : Setting) :
    afterOps r ops k.addr = lastSet (fun k => r k.addr) ops k := by
  unfold afterOps lastSet
  rw [puts_apply, lastPut_flatMap]
  congr 2
  funext op
  exact op.lastPut_writes k

/-- **What is read is what was last set**, whoever set it, and the channels run as they were last
told. -/
theorem csr_get_settings (r : ℕ → Word) (ops : List RegOp) :
    qdmaGlobalCsrGet (afterOps r ops)
        = GlobalCsr.ofSettings (lastSet (fun k => r k.addr) ops) ∧
      qdmaGetWrbAcc (afterOps r ops) = lastSet (fun k => r k.addr) ops .wbAcc ∧
      afterOps r ops (mmControl 0 true) = lastSet (fun k => r k.addr) ops .h2cRun ∧
      afterOps r ops (mmControl 0 false) = lastSet (fun k => r k.addr) ops .c2hRun := by
  have hget := fun k => afterOps_apply r ops k
  refine ⟨?_, hget .wbAcc, hget .h2cRun, hget .c2hRun⟩
  refine GlobalCsr.ext ?_ (hget .wbAcc) ?_ ?_ ?_ <;> funext i
  · exact hget (.ringSz i)
  · exact hget (.c2hTimerCnt i)
  · exact hget (.c2hCntTh i)
  · exact hget (.c2hBufSz i)

/-- The settings after further operations. -/
theorem lastSet_append (before : Setting → Word) (ops ops' : List RegOp) (k : Setting) :
    lastSet before (ops ++ ops') k = lastSet (lastSet before ops) ops' k := by
  unfold lastSet
  rw [List.reverse_append, List.findSome?_append]
  cases ops'.reverse.findSome? (RegOp.sets k) <;> rfl

/-- **One channel is never stopped**: once a master PF has started both, the driver's own
operations leave the second running. -/
theorem c2h_keeps_running (r : ℕ → Word) {ops : List RegOp} (hinit : .deviceInit true ∈ ops)
    (hraw : ∀ a v, .writeConfig a v ∈ ops → a ≠ mmControl 0 false) :
    afterOps r ops (mmControl 0 false) = qdmaRegMmControlRun := by
  rw [show mmControl 0 false = Setting.c2hRun.addr from rfl, afterOps_apply]
  unfold lastSet
  cases hlast : ops.reverse.findSome? (RegOp.sets .c2hRun) with
  | none =>
      have hno := List.findSome?_eq_none_iff.mp hlast _ (List.mem_reverse.mpr hinit)
      cases hno
  | some v =>
      obtain ⟨op, hmem, hsets⟩ := List.exists_of_findSome?_eq_some hlast
      rw [List.mem_reverse] at hmem
      cases op with
      | deviceInit masterPf =>
          cases masterPf with
          | false => cases hsets
          | true => exact (Option.some.inj hsets).symm
      | deviceCleanup funcId =>
          rw [RegOp.sets, if_neg (fun h => by cases h.2)] at hsets
          cases hsets
      | globalCsrSet funcId csr =>
          simp only [RegOp.sets, GlobalCsr.setting, ite_self] at hsets
          cases hsets
      | setWrbAcc wrbAcc => cases hsets
      | writeConfig regAddr val =>
          rw [RegOp.sets, if_neg (fun h => hraw _ _ hmem h.symm)] at hsets
          cases hsets
      | other reg val => cases hsets

/-! ## The ring of a queue -/

/-- The tables, as a queue's start takes them. -/
def GlobalCsr.toConf (csr : GlobalCsr) : GlobalCsrConf where
  ringSz := fun i => (csr.ringSz (BitVec.ofNat 4 i).toFin).toNat
  c2hBufSz := fun i => (csr.c2hBufSz (BitVec.ofNat 4 i).toFin).toNat

/-- A queue that starts, whatever its kind, has its configuration completed from the tables. -/
theorem descqStart_conf {d : Descq} {env : StartEnv} {csr : GlobalCsrConf}
    (hcsr : env.csr = some csr) (hok : (descqStart d env).2 = 0) :
    (descqStart d env).1.conf = (qdmaDescqConfigComplete d csr).conf := by
  cases hkind : (d.conf.st && d.conf.c2h) with
  | false => rw [descqStart_eq hcsr hkind hok, configComplete_eq csr hkind]
  | true =>
      obtain ⟨slot, sdesc, intrId, heq, -⟩ := startC2h_eq hcsr hkind hok
      rw [heq, configComplete_c2h hkind]
      rfl

/-- **The ring is as long as the device takes it to be** exactly as long as its size is not set to
anything else: a queue is started with the tables as they are after `ops`, and then come `ops'`. -/
theorem ring_agrees_iff {r : ℕ → Word} {ops : List RegOp} {d : Descq} {env : StartEnv} {e : CtxtEnv}
    (hw : d.conf.Widths) (he : e.Widths)
    (hcsr : env.csr = some (qdmaGlobalCsrGet (afterOps r ops)).toConf)
    (hok : (descqStart d env).2 = 0) (ops' : List RegOp) :
    RingAgrees (descqStart d env).1 (qdmaGlobalCsrGet (afterOps r (ops ++ ops'))).toConf
        (SwContext.decode (makeSwContext (descqStart d env).1 e)) ↔
      lastSet (lastSet (fun k => r k.addr) ops) ops' (.ringSz (Fin.ofNat 16 d.conf.descRngSzIdx))
        = lastSet (fun k => r k.addr) ops (.ringSz (Fin.ofNat 16 d.conf.descRngSzIdx)) := by
  have hsize : ∀ ops, (qdmaGlobalCsrGet (afterOps r ops)).toConf.ringSz d.conf.descRngSzIdx
      = (lastSet (fun k => r k.addr) ops (.ringSz (Fin.ofNat 16 d.conf.descRngSzIdx))).toNat := by
    intro ops
    rw [(csr_get_settings r ops).1]
    rfl
  obtain ⟨hw', -, hidx, -, -, -, hr, -⟩ := geometry_conf hw (descqStart_conf hcsr hok)
  generalize (descqStart d env).1 = d' at hw' hidx hr ⊢
  rw [swContext_decode hw' he, ← lastSet_append, ← BitVec.toNat_inj, ← hsize, ← hsize]
  have hlen : u32 (d'.conf.rngsz + 1)
      = (qdmaGlobalCsrGet (afterOps r ops)).toConf.ringSz d.conf.descRngSzIdx := by
    rw [hr]
    exact u32_pred_succ (BitVec.isLt _)
  constructor
  · intro h
    rw [← hlen, h.entries]
    exact congrArg _ hidx.symm
  · intro h
    have hent : u32 (d'.conf.rngsz + 1) = (qdmaGlobalCsrGet
        (afterOps r (ops ++ ops'))).toConf.ringSz (SwContext.intended d' e).rngSz := by
      rw [hlen, ← h]
      exact congrArg _ hidx.symm
    refine ⟨hent, ?_⟩
    rw [← hent, hlen, getDescSize_eq, hr]
    rfl

/-- Tables with one size for all rings. -/
def ringsOfSize (n : Word) : GlobalCsr :=
  { GlobalCsr.ofSettings Setting.default with ringSz := fun _ => n }

/-- A queue just added, of the plainest kind. -/
def freshMm : Descq where
  conf := {}
  enabled := true

/-- Function 1 may not change the size of its ring, and function 0 may. -/
theorem ring_agrees_fours :
    let after := fun ops => (qdmaGlobalCsrGet (afterOps (fun _ => 0) ops)).toConf
    let ops := [RegOp.deviceInit true, .globalCsrSet 0 (ringsOfSize 4)]
    let d := (descqStart freshMm (cleanStart (after ops))).1
    let c := SwContext.decode (makeSwContext d cleanEnv)
    RingAgrees d (after (ops ++ [.globalCsrSet 1 (ringsOfSize 8)])) c ∧
      ¬ RingAgrees d (after (ops ++ [.globalCsrSet 0 (ringsOfSize 8)])) c := by
  have hiff := @ring_agrees_iff (fun _ => 0)
    [RegOp.deviceInit true, .globalCsrSet 0 (ringsOfSize 4)] freshMm
    (cleanStart (qdmaGlobalCsrGet (afterOps (fun _ => 0)
      [RegOp.deviceInit true, .globalCsrSet 0 (ringsOfSize 4)])).toConf) cleanEnv
    ⟨by decide, by decide, by decide, by decide, by decide, by decide, by decide⟩
    ⟨by decide, by decide, by decide, by decide, by decide⟩ rfl (by decide +kernel)
  exact ⟨(hiff _).mpr (by decide +kernel), fun h => absurd ((hiff _).mp h) (by decide +kernel)⟩

end Qdma
