/-
# Register dumps

`reg dump` maps two of the device's memories and reads every register of a table: `reg_dump_mmap`
reads those of the user and the config BAR, `reg_dump_range` those of the queues from `start` on,
`limit` of each.  `reg_dump_iff` says for which ranges on the line all reads stay inside the bytes
that were mapped and the registers printed are those of the queues asked for.
-/
import Qdma.CmdSizes
import Qdma.Dumps

namespace Qdma

/-! ## The registers -/

/-- `struct xreg_info`, with `repeat` as `rep`. -/
structure XregInfo where
  name : String
  addr : ℕ
  rep : ℕ
  step : ℕ
  shift : ℕ
  len : ℕ

/-- `QDMA_CFG_BAR_SIZE`. -/
def qdmaCfgBarSize : ℕ := 0xB400

/-- `QDMA_USR_BAR_SIZE`. -/
def qdmaUsrBarSize : ℕ := 0x100

/-- `qdma_config_regs`. -/
def qdmaConfigXregs : List XregInfo :=
  [⟨"CFG_BLOCK_ID", 0x00, 0, 0, 0, 0⟩, ⟨"CFG_BUSDEV", 0x04, 0, 0, 0, 0⟩,
    ⟨"CFG_PCIE_MAX_PL_SZ", 0x08, 0, 0, 0, 0⟩, ⟨"CFG_PCIE_MAX_RDRQ_SZ", 0x0C, 0, 0, 0, 0⟩,
    ⟨"CFG_SYS_ID", 0x10, 0, 0, 0, 0⟩, ⟨"CFG_MSI_EN", 0x14, 0, 0, 0, 0⟩,
    ⟨"CFG_PCIE_DATA_WIDTH", 0x18, 0, 0, 0, 0⟩, ⟨"CFG_PCIE_CTRL", 0x1C, 0, 0, 0, 0⟩,
    ⟨"CFG_AXI_USR_MAX_PL_SZ", 0x40, 0, 0, 0, 0⟩, ⟨"CFG_AXI_USR_MAX_RDRQ_SZ", 0x44, 0, 0, 0, 0⟩,
    ⟨"CFG_WR_FLUSH_TIMEOUT", 0x60, 0, 0, 0, 0⟩, ⟨"GLBL2_ID", 0x100, 0, 0, 0, 0⟩,
    ⟨"GLBL2_PF_BL_INT", 0x104, 0, 0, 0, 0⟩, ⟨"GLBL2_PF_VF_BL_INT", 0x108, 0, 0, 0, 0⟩,
    ⟨"GLBL2_PF_BL_EXT", 0x10C, 0, 0, 0, 0⟩, ⟨"GLBL2_PF_VF_BL_EXT", 0x110, 0, 0, 0, 0⟩,
    ⟨"GLBL2_CHNL_INST", 0x114, 0, 0, 0, 0⟩, ⟨"GLBL2_CHNL_QDMA", 0x118, 0, 0, 0, 0⟩,
    ⟨"GLBL2_CHNL_STRM", 0x11C, 0, 0, 0, 0⟩, ⟨"GLBL2_QDMA_CAP", 0x120, 0, 0, 0, 0⟩,
    ⟨"GLBL2_PASID_CAP", 0x128, 0, 0, 0, 0⟩, ⟨"GLBL2_FUNC_RET", 0x12C, 0, 0, 0, 0⟩,
    ⟨"GLBL2_SYS_ID", 0x130, 0, 0, 0, 0⟩, ⟨"GLBL2_MISC_CAP", 0x134, 0, 0, 0, 0⟩,
    ⟨"GLBL2_DBG_PCIE_RQ", 0x1B8, 2, 0, 0, 0⟩, ⟨"GLBL2_DBG_AXIMM_WR", 0x1C0, 2, 0, 0, 0⟩,
    ⟨"GLBL2_DBG_AXIMM_RD", 0x1C8, 2, 0, 0, 0⟩, ⟨"GLBL_RNGSZ", 0x204, 16, 0, 0, 0⟩,
    ⟨"GLBL_SCRATCH", 0x244, 0, 0, 0, 0⟩, ⟨"GLBL_ERR_STAT", 0x248, 0, 0, 0, 0⟩,
    ⟨"GLBL_ERR_MASK", 0x24C, 0, 0, 0, 0⟩, ⟨"GLBL_DSC_CFG", 0x250, 0, 0, 0, 0⟩,
    ⟨"GLBL_DSC_ERR_STS", 0x254, 0, 0, 0, 0⟩, ⟨"GLBL_DSC_ERR_MSK", 0x258, 0, 0, 0, 0⟩,
    ⟨"GLBL_DSC_ERR_LOG", 0x25C, 2, 0, 0, 0⟩, ⟨"GLBL_TRQ_ERR_STS", 0x264, 0, 0, 0, 0⟩,
    ⟨"GLBL_TRQ_ERR_MSK", 0x268, 0, 0, 0, 0⟩, ⟨"GLBL_TRQ_ERR_LOG", 0x26C, 0, 0, 0, 0⟩,
    ⟨"GLBL_DSC_DBG_DAT", 0x270, 2, 0, 0, 0⟩, ⟨"GLBL_DSC_DBG_CTL", 0x278, 0, 0, 0, 0⟩,
    ⟨"TRQ_SEL_FMAP", 0x400, 4, 0, 0, 0⟩, ⟨"IND_CTXT_DATA", 0x804, 4, 0, 0, 0⟩,
    ⟨"IND_CTXT_MASK", 0x814, 4, 0, 0, 0⟩, ⟨"IND_CTXT_CMD", 0x824, 0, 0, 0, 0⟩,
    ⟨"IND_CAUSE", 0x828, 0, 0, 0, 0⟩, ⟨"IND_ENABLE", 0x82C, 0, 0, 0, 0⟩,
    ⟨"C2H_TIMER_CNT", 0xA00, 16, 0, 0, 0⟩, ⟨"C2H_CNT_THRESH", 0xA40, 16, 0, 0, 0⟩,
    ⟨"C2H_QID2VEC_MAP_QID", 0xA80, 0, 0, 0, 0⟩, ⟨"C2H_QID2VEC_MAP", 0xA84, 0, 0, 0, 0⟩,
    ⟨"C2H_STAT_S_AXIS_C2H_ACCEPTED", 0xA88, 0, 0, 0, 0⟩,
    ⟨"C2H_STAT_S_AXIS_WRB_ACCEPTED", 0xA8C, 0, 0, 0, 0⟩,
    ⟨"C2H_STAT_DESC_RSP_PKT_ACCEPTED", 0xA90, 0, 0, 0, 0⟩,
    ⟨"C2H_STAT_AXIS_PKG_CMP", 0xA94, 0, 0, 0, 0⟩,
    ⟨"C2H_STAT_DESC_RSP_ACCEPTED", 0xA98, 0, 0, 0, 0⟩,
    ⟨"C2H_STAT_DESC_RSP_CMP", 0xA9C, 0, 0, 0, 0⟩, ⟨"C2H_STAT_WRQ_OUT", 0xAA0, 0, 0, 0, 0⟩,
    ⟨"C2H_STAT_WPL_REN_ACCEPTED", 0xAA4, 0, 0, 0, 0⟩,
    ⟨"C2H_STAT_TOTAL_WRQ_LEN", 0xAA8, 0, 0, 0, 0⟩, ⟨"C2H_STAT_TOTAL_WPL_LEN", 0xAAC, 0, 0, 0, 0⟩,
    ⟨"C2H_BUF_SZ", 0xAB0, 16, 0, 0, 0⟩, ⟨"C2H_ERR_STAT", 0xAF0, 0, 0, 0, 0⟩,
    ⟨"C2H_ERR_MASK", 0xAF4, 0, 0, 0, 0⟩, ⟨"C2H_FATAL_ERR_STAT", 0xAF8, 0, 0, 0, 0⟩,
    ⟨"C2H_FATAL_ERR_MASK", 0xAFC, 0, 0, 0, 0⟩, ⟨"C2H_FATAL_ERR_ENABLE", 0xB00, 0, 0, 0, 0⟩,
    ⟨"C2H_ERR_INT", 0xB04, 0, 0, 0, 0⟩, ⟨"C2H_PFCH_CFG", 0xB08, 0, 0, 0, 0⟩,
    ⟨"C2H_INT_TIMER_TICK", 0xB0C, 0, 0, 0, 0⟩,
    ⟨"C2H_STAT_DESC_RSP_DROP_ACCEPTED", 0xB10, 0, 0, 0, 0⟩,
    ⟨"C2H_STAT_DESC_RSP_ERR_ACCEPTED", 0xB14, 0, 0, 0, 0⟩,
    ⟨"C2H_STAT_DESC_REQ", 0xB18, 0, 0, 0, 0⟩, ⟨"C2H_STAT_DEBUG_DMA_ENG", 0xB1C, 4, 0, 0, 0⟩,
    ⟨"C2H_INTR_MSIX", 0xB2C, 0, 0, 0, 0⟩, ⟨"C2H_FIRST_ERR_QID", 0xB30, 0, 0, 0, 0⟩,
    ⟨"STAT_NUM_WRB_IN", 0xB34, 0, 0, 0, 0⟩, ⟨"STAT_NUM_WRB_OUT", 0xB38, 0, 0, 0, 0⟩,
    ⟨"STAT_NUM_WRB_DRP", 0xB3C, 0, 0, 0, 0⟩, ⟨"STAT_NUM_STAT_DESC_OUT", 0xB40, 0, 0, 0, 0⟩,
    ⟨"STAT_NUM_DSC_CRDT_SENT", 0xB44, 0, 0, 0, 0⟩, ⟨"STAT_NUM_FCH_DSC_RCVD", 0xB48, 0, 0, 0, 0⟩,
    ⟨"STAT_NUM_BYP_DSC_RCVD", 0xB4C, 0, 0, 0, 0⟩, ⟨"C2H_WRB_COAL_CFG", 0xB50, 0, 0, 0, 0⟩,
    ⟨"C2H_INTR_H2C_REQ", 0xB54, 0, 0, 0, 0⟩, ⟨"C2H_INTR_C2H_MM_REQ", 0xB58, 0, 0, 0, 0⟩,
    ⟨"C2H_INTR_ERR_INT_REQ", 0xB5C, 0, 0, 0, 0⟩, ⟨"C2H_INTR_C2H_ST_REQ", 0xB60, 0, 0, 0, 0⟩,
    ⟨"C2H_INTR_H2C_ERR_MM_MSIX_ACK", 0xB64, 0, 0, 0, 0⟩,
    ⟨"C2H_INTR_H2C_ERR_MM_MSIX_FAIL", 0xB68, 0, 0, 0, 0⟩,
    ⟨"C2H_INTR_H2C_ERR_MM_NO_MSIX", 0xB6C, 0, 0, 0, 0⟩,
    ⟨"C2H_INTR_H2C_ERR_MM_CTXT_INVAL", 0xB70, 0, 0, 0, 0⟩,
    ⟨"C2H_INTR_C2H_ST_MSIX_ACK", 0xB74, 0, 0, 0, 0⟩,
    ⟨"C2H_INTR_C2H_ST_MSIX_FAIL", 0xB78, 0, 0, 0, 0⟩,
    ⟨"C2H_INTR_C2H_ST_NO_MSIX", 0xB7C, 0, 0, 0, 0⟩,
    ⟨"C2H_INTR_C2H_ST_CTXT_INVAL", 0xB80, 0, 0, 0, 0⟩, ⟨"C2H_STAT_WR_CMP", 0xB84, 0, 0, 0, 0⟩,
    ⟨"C2H_STAT_DEBUG_DMA_ENG_4", 0xB88, 0, 0, 0, 0⟩,
    ⟨"C2H_STAT_DEBUG_DMA_ENG_5", 0xB8C, 0, 0, 0, 0⟩, ⟨"C2H_DBG_PFCH_QID", 0xB90, 0, 0, 0, 0⟩,
    ⟨"C2H_DBG_PFCH", 0xB94, 0, 0, 0, 0⟩, ⟨"C2H_INT_DEBUG", 0xB98, 0, 0, 0, 0⟩,
    ⟨"C2H_STAT_IMM_ACCEPTED", 0xB9C, 0, 0, 0, 0⟩,
    ⟨"C2H_STAT_MARKER_ACCEPTED", 0xBA0, 0, 0, 0, 0⟩,
    ⟨"C2H_STAT_DISABLE_CMP_ACCEPTED", 0xBA4, 0, 0, 0, 0⟩,
    ⟨"C2H_C2H_PAYLOAD_FIFO_CRDT_CNT", 0xBA8, 0, 0, 0, 0⟩, ⟨"H2C_ERR_STAT", 0xE00, 0, 0, 0, 0⟩,
    ⟨"H2C_ERR_MASK", 0xE04, 0, 0, 0, 0⟩, ⟨"H2C_ERR_FIRST_QID", 0xE08, 0, 0, 0, 0⟩,
    ⟨"H2C_DBG_REG", 0xE0C, 5, 0, 0, 0⟩, ⟨"C2H_MM0_CONTROL", 0x1004, 0, 0, 0, 0⟩,
    ⟨"C2H_MM0_STATUS", 0x1040, 0, 0, 0, 0⟩, ⟨"C2H_MM0_CMPL_DSC_CNT", 0x1048, 0, 0, 0, 0⟩,
    ⟨"C2H_MM0_ERR_CODE_EN_MASK", 0x1054, 0, 0, 0, 0⟩, ⟨"C2H_MM0_ERR_CODE", 0x1058, 0, 0, 0, 0⟩,
    ⟨"C2H_MM0_ERR_INFO", 0x105C, 0, 0, 0, 0⟩, ⟨"C2H_MM0_PERF_MON_CTRL", 0x10C0, 0, 0, 0, 0⟩,
    ⟨"C2H_MM0_PERF_MON_CY_CNT", 0x10C4, 2, 0, 0, 0⟩,
    ⟨"C2H_MM0_PERF_MON_DATA_CNT", 0x10CC, 2, 0, 0, 0⟩, ⟨"C2H_MM_DBG_INFO", 0x10E8, 2, 0, 0, 0⟩,
    ⟨"H2C_MM0_CONTROL", 0x1204, 0, 0, 0, 0⟩, ⟨"H2C_MM0_STATUS", 0x1240, 0, 0, 0, 0⟩,
    ⟨"H2C_MM0_CMPL_DSC_CNT", 0x1248, 0, 0, 0, 0⟩,
    ⟨"H2C_MM0_ERR_CODE_EN_MASK", 0x1254, 0, 0, 0, 0⟩, ⟨"H2C_MM0_ERR_CODE", 0x1258, 0, 0, 0, 0⟩,
    ⟨"H2C_MM0_ERR_INFO", 0x125C, 0, 0, 0, 0⟩, ⟨"H2C_MM0_PERF_MON_CTRL", 0x12C0, 0, 0, 0, 0⟩,
    ⟨"H2C_MM0_PERF_MON_CY_CNT", 0x12C4, 2, 0, 0, 0⟩,
    ⟨"H2C_MM0_PERF_MON_DATA_CNT", 0x12CC, 2, 0, 0, 0⟩, ⟨"H2C_MM0_DBG_INFO", 0x12E8, 0, 0, 0, 0⟩,
    ⟨"FUNC_STATUS", 0x2400, 0, 0, 0, 0⟩, ⟨"FUNC_CMD", 0x2404, 0, 0, 0, 0⟩,
    ⟨"FUNC_INTR_VEC", 0x2408, 0, 0, 0, 0⟩, ⟨"TARGET_FUNC", 0x240C, 0, 0, 0, 0⟩,
    ⟨"INTR_CTRL", 0x2410, 0, 0, 0, 0⟩, ⟨"PF_ACK", 0x2420, 8, 0, 0, 0⟩,
    ⟨"FLR_CTRL_STATUS", 0x2500, 0, 0, 0, 0⟩, ⟨"MSG_IN", 0x2C00, 32, 0, 0, 0⟩,
    ⟨"MSG_OUT", 0x3000, 32, 0, 0, 0⟩, ⟨"", 0, 0, 0, 0, 0⟩]

/-- `qdma_dmap_regs`. -/
def qdmaDmapRegs : List XregInfo :=
  [⟨"DMAP_SEL_INT_CIDX", 0x6400, 512, 0x10, 0, 0⟩,
    ⟨"DMAP_SEL_H2C_DSC_PIDX", 0x6404, 512, 0x10, 0, 0⟩,
    ⟨"DMAP_SEL_C2H_DSC_PIDX", 0x6408, 512, 0x10, 0, 0⟩,
    ⟨"DMAP_SEL_WRB_CIDX", 0x640C, 512, 0x10, 0, 0⟩, ⟨"", 0, 0, 0, 0, 0⟩]

/-- `qdma_user_regs`. -/
def qdmaUserRegs : List XregInfo :=
  [⟨"ST_C2H_QID", 0x0, 0, 0, 0, 0⟩, ⟨"ST_C2H_PKTLEN", 0x4, 0, 0, 0, 0⟩,
    ⟨"ST_C2H_CONTROL", 0x8, 0, 0, 0, 0⟩, ⟨"ST_H2C_CONTROL", 0xC, 0, 0, 0, 0⟩,
    ⟨"ST_H2C_STATUS", 0x10, 0, 0, 0, 0⟩, ⟨"ST_H2C_XFER_CNT", 0x14, 0, 0, 0, 0⟩,
    ⟨"ST_C2H_PKT_CNT", 0x20, 0, 0, 0, 0⟩, ⟨"ST_C2H_WRB_DATA", 0x30, 8, 0, 0, 0⟩,
    ⟨"ST_C2H_WRB_SIZE", 0x50, 0, 0, 0, 0⟩, ⟨"ST_SCRATCH_REG", 0x60, 2, 0, 0, 0⟩,
    ⟨"ST_C2H_PKT_DROP", 0x88, 0, 0, 0, 0⟩, ⟨"ST_C2H_PKT_ACCEPT", 0x8C, 0, 0, 0, 0⟩,
    ⟨"DSC_BYPASS_LOOP", 0x90, 0, 0, 0, 0⟩, ⟨"USER_INTERRUPT", 0x94, 0, 0, 0, 0⟩,
    ⟨"USER_INTERRUPT_MASK", 0x98, 0, 0, 0, 0⟩, ⟨"USER_INTERRUPT_VEC", 0x9C, 0, 0, 0, 0⟩,
    ⟨"DMA_CONTROL", 0xA0, 0, 0, 0, 0⟩, ⟨"", 0, 0, 0, 0, 0⟩]

/-! ## The dump -/

/-- A row that is printed: the address that was read, what stands for its name and its value, and
whether the name was put together in `char name[40]`. -/
structure RegRow where
  addr : ℕ
  name : List Char
  val : ℕ
  inBuf : Bool := false

/-- The row of the `i`-th register of an entry.  The product is an `int`, and wraps. -/
def XregInfo.repeated (x : XregInfo) (bar : ℕ → ℕ) (i : ℤ) : RegRow :=
  let step := if x.step ≠ 0 then x.step else 4
  let addr := ((x.addr + i * step) % 2 ^ 32).toNat
  { addr := addr, name := x.name.toList ++ '_' :: fmtInt i, val := bar (addr / 4), inBuf := true }

/-- `print_repeated_reg`; `i` and `end` are of type `int`. -/
def printRepeatedReg (bar : ℕ → ℕ) (x : XregInfo) (start limit : ℕ) : List RegRow :=
  let i := toInt start
  let stop := toInt (u32 (start + limit))
  (indicesFrom i (stop - i).toNat).map (x.repeated bar)

/-- The row of a register, or of a field of it. -/
def XregInfo.single (x : XregInfo) (bar : ℕ → ℕ) : RegRow :=
  let val := bar (x.addr / 4)
  { addr := x.addr
    name := x.name.toList
    val := if x.len = 0 then val else (val >>> x.shift) &&& u32Sub (1 <<< x.len) 1 }

/-- The entries before the one without a name, which ends a table. -/
def named (regs : List XregInfo) : List XregInfo := regs.takeWhile fun x => decide (x.name ≠ "")

/-- `reg_dump_mmap`. -/
def regDumpMmap (bar : ℕ → ℕ) (regs : List XregInfo) : List RegRow :=
  (named regs).flatMap fun x =>
    if x.len = 0 ∧ x.rep ≠ 0 then printRepeatedReg bar x 0 x.rep else [x.single bar]

/-- `reg_dump_range`. -/
def regDumpRange (bar : ℕ → ℕ) (regs : List XregInfo) (start limit : ℕ) : List RegRow :=
  (named regs).flatMap fun x => printRepeatedReg bar x start limit

/-- What a dump prints, from the words of the two memories. -/
structure RegDump where
  user : List RegRow
  config : List RegRow
  queues : List RegRow

/-- `XNL_CMD_REG_DUMP` in `proc_reg_cmd`. -/
def procRegDump (userBar configBar : ℕ → ℕ) (regcmd : XcmdReg) : RegDump where
  user := regDumpMmap userBar qdmaUserRegs
  config := regDumpMmap configBar qdmaConfigXregs
  queues := regDumpRange configBar qdmaDmapRegs regcmd.rangeStart regcmd.rangeEnd

/-! ## The law -/

/-- All words that are read lie in the `max` bytes that are mapped. -/
def InMapping (max : ℕ) (rows : List RegRow) : Prop := ∀ r ∈ rows, r.addr / 4 * 4 + 4 ≤ max

/-- The names and their terminators fit into the buffer. -/
def NamesFit (rows : List RegRow) : Prop := ∀ r ∈ rows, r.inBuf = true → r.name.length + 1 ≤ 40

/-- The register of queue `q`. -/
def XregInfo.ofQueue (x : XregInfo) (bar : ℕ → ℕ) (q : ℕ) : RegRow :=
  let addr := x.addr + q * x.step
  { addr := addr, name := x.name.toList ++ '_' :: fmtDec q, val := bar (addr / 4), inBuf := true }

/-- The registers of the queues `q` to `q + n - 1`. -/
def queueRows (bar : ℕ → ℕ) (q n : ℕ) : List RegRow :=
  (named qdmaDmapRegs).flatMap fun x => (List.range' q n).map (x.ofQueue bar)

/-- The queues that a line asks for: `dmap <Q> <N>`. -/
def dmapAsked : List String → Option (ℕ × ℕ)
  | [_, _, _, _, k, a, b] => if k = "dmap" then some (typedVal a, typedVal b) else none
  | _ => none

/-- **A dump stays inside what is mapped** and prints the queues that the line asks for. -/
structure RightDump (argv : List String) (configBar : ℕ → ℕ) (d : RegDump) : Prop where
  user : InMapping qdmaUsrBarSize d.user
  config : InMapping qdmaCfgBarSize d.config
  queues : InMapping qdmaCfgBarSize d.queues
  names : NamesFit (d.user ++ d.config ++ d.queues)
  asked : ∀ q n, dmapAsked argv = some (q, n) → d.queues = queueRows configBar q n

/-- The queues whose registers are mapped. -/
def mappedQueues : ℕ := 1280

/-- **When it does.** -/
def DumpFits (argv : List String) : Prop :=
  ∀ q n, dmapAsked argv = some (q, n) → n = 0 ∨ q + n ≤ mappedQueues

/-! ## Names -/

theorem length_fmtDec {n : ℕ} (h : n < 10 ^ 10) : (fmtDec n).length ≤ 10 :=
  (Nat.length_toDigits_le_iff (by decide) (by decide)).mpr h

/-- A sign and ten digits. -/
theorem length_fmtInt {i : ℤ} (h : i.natAbs ≤ 2 ^ 31) : (fmtInt i).length ≤ 11 := by
  unfold fmtInt
  split_ifs with hneg
  · have hlen := length_fmtDec (show i.natAbs < 10 ^ 10 by omega)
    rw [List.length_cons]
    omega
  · have hlen := length_fmtDec (show i.toNat < 10 ^ 10 by omega)
    omega

theorem natAbs_toInt {n : ℕ} (hn : n < 2 ^ 32) : (toInt n).natAbs ≤ 2 ^ 31 := by
  unfold toInt
  split_ifs <;> omega

/-- What `print_repeated_reg` visits lies between two values of type `int`. -/
theorem mem_printRepeatedReg {bar : ℕ → ℕ} {x : XregInfo} {start limit : ℕ}
    (hs : start < 2 ^ 32) {r : RegRow} (h : r ∈ printRepeatedReg bar x start limit) :
    ∃ i : ℤ, i.natAbs ≤ 2 ^ 31 ∧ r = x.repeated bar i := by
  unfold printRepeatedReg indicesFrom at h
  rw [List.map_map] at h
  obtain ⟨j, hj, rfl⟩ := List.mem_map.mp h
  refine ⟨_, ?_, rfl⟩
  have hlt := List.mem_range.mp hj
  have hlo := natAbs_toInt hs
  have hhi : (toInt (u32 (start + limit))).natAbs ≤ 2 ^ 31 :=
    natAbs_toInt (Nat.mod_lt _ (by norm_num))
  show (toInt start + (j : ℤ)).natAbs ≤ 2 ^ 31
  omega

/-- A name of up to 27 characters leaves room for the number. -/
theorem namesFit_repeated (bar : ℕ → ℕ) {x : XregInfo} {start : ℕ} (limit : ℕ) (hs : start < 2 ^ 32)
    (hname : x.name.toList.length ≤ 27) : NamesFit (printRepeatedReg bar x start limit) := by
  intro r hr _
  obtain ⟨i, hi, rfl⟩ := mem_printRepeatedReg hs hr
  have hlen := length_fmtInt hi
  show (x.name.toList ++ '_' :: fmtInt i).length + 1 ≤ 40
  rw [List.length_append, List.length_cons]
  omega

theorem NamesFit.append {rows rows' : List RegRow} (h : NamesFit rows) (h' : NamesFit rows') :
    NamesFit (rows ++ rows') := by
  intro r hr
  rcases List.mem_append.mp hr with hr | hr
  · exact h r hr
  · exact h' r hr

/-! ## The tables -/

/-- What an entry of a table of single and repeated registers is to be. -/
structure XregInfo.Good (max : ℕ) (x : XregInfo) : Prop where
  whole : x.len = 0
  step : x.step = 0
  rep : x.rep ≤ 32
  fits : x.addr + 4 * x.rep ≤ max
  single : x.addr + 4 ≤ max
  name : x.rep ≠ 0 → x.name.toList.length ≤ 27

instance (max : ℕ) (x : XregInfo) : Decidable (x.Good max) :=
  decidable_of_iff (x.len = 0 ∧ x.step = 0 ∧ x.rep ≤ 32 ∧ x.addr + 4 * x.rep ≤ max ∧
      x.addr + 4 ≤ max ∧ (x.rep ≠ 0 → x.name.toList.length ≤ 27))
    ⟨fun ⟨h1, h2, h3, h4, h5, h6⟩ => ⟨h1, h2, h3, h4, h5, h6⟩,
      fun h => ⟨h.whole, h.step, h.rep, h.fits, h.single, h.name⟩⟩

theorem good_user : ∀ x ∈ named qdmaUserRegs, x.Good qdmaUsrBarSize := by decide +kernel

theorem good_config : ∀ x ∈ named qdmaConfigXregs, x.Good qdmaCfgBarSize := by decide +kernel

/-- The entries for the queues. -/
theorem good_dmap : ∀ x ∈ named qdmaDmapRegs, x.step = 0x10 ∧ x.addr % 4 = 0 ∧ 0x6400 ≤ x.addr ∧
    x.addr ≤ 0x640C ∧ x.name.toList.length ≤ 27 := by decide +kernel

theorem dmap_ne_nil : named qdmaDmapRegs ≠ [] := by decide +kernel

/-! ## Rows of a table -/

/-- Up to the middle of the values of type `int` the rows are those of consecutive indices. -/
theorem printRepeatedReg_eq {bar : ℕ → ℕ} {x : XregInfo} {start limit : ℕ}
    (h : start + limit < 2 ^ 31) : printRepeatedReg bar x start limit
      = (List.range' start limit).map fun i : ℕ => x.repeated bar i := by
  have hcount : (toInt (start + limit) - toInt start).toNat = limit := by
    rw [toInt_of_lt h, toInt_of_lt (by omega)]
    omega
  unfold printRepeatedReg indicesFrom
  simp only
  rw [u32_of_lt (by omega), hcount, toInt_of_lt (by omega), List.map_map,
    List.range'_eq_map_range, List.map_map]
  apply List.map_congr_left
  intro j _
  simp only [Function.comp_apply]
  push_cast
  rfl

/-- No rows without a limit. -/
theorem printRepeatedReg_zero (bar : ℕ → ℕ) (x : XregInfo) {start : ℕ} (hs : start < 2 ^ 32) :
    printRepeatedReg bar x start 0 = [] := by
  unfold printRepeatedReg
  simp only
  rw [Nat.add_zero, u32_of_lt hs, sub_self]
  rfl

/-- The address of an entry that is not repeated too often. -/
theorem repeated_addr {bar : ℕ → ℕ} {x : XregInfo} {i s : ℕ} (hs : s = if x.step ≠ 0 then x.step
    else 4) (h : x.addr + i * s < 2 ^ 32) : (x.repeated bar i).addr = x.addr + i * s := by
  show (((x.addr : ℤ) + (i : ℤ) * (if x.step ≠ 0 then x.step else 4 : ℕ)) % 2 ^ 32).toNat = _
  rw [← hs]
  have hcast : (x.addr : ℤ) + (i : ℤ) * (s : ℕ) = ((x.addr + i * s : ℕ) : ℤ) := by
    push_cast
    rfl
  rw [hcast]
  omega

/-- A good table is read inside its memory, and its names fit. -/
theorem regDumpMmap_good (bar : ℕ → ℕ) {regs : List XregInfo} {max : ℕ} (hmax : max < 2 ^ 31)
    (h : ∀ x ∈ named regs, x.Good max) :
    InMapping max (regDumpMmap bar regs) ∧ NamesFit (regDumpMmap bar regs) := by
  have hrow : ∀ r ∈ regDumpMmap bar regs, r.addr + 4 ≤ max ∧
      (r.inBuf = true → r.name.length + 1 ≤ 40) := by
    intro r hr
    obtain ⟨x, hx, hr⟩ := List.mem_flatMap.mp hr
    have hgood := h x hx
    by_cases hrep : x.len = 0 ∧ x.rep ≠ 0
    · rw [if_pos hrep] at hr
      have hnames := namesFit_repeated bar x.rep (by norm_num : 0 < 2 ^ 32)
        (hgood.name hrep.2)
      refine ⟨?_, hnames r hr⟩
      rw [printRepeatedReg_eq (by have := hgood.rep; omega)] at hr
      obtain ⟨i, hi, rfl⟩ := List.mem_map.mp hr
      have hlt := List.mem_range'_1.mp hi
      have hfits := hgood.fits
      rw [repeated_addr (s := 4) (by rw [hgood.step]; rfl) (by omega)]
      omega
    · rw [if_neg hrep] at hr
      obtain rfl := List.mem_singleton.mp hr
      exact ⟨hgood.single, Bool.noConfusion⟩
  refine ⟨fun r hr => ?_, fun r hr => (hrow r hr).2⟩
  have hle := (hrow r hr).1
  omega

/-- On queues that are mapped the rows are those of the queues. -/
theorem regDumpRange_eq {bar : ℕ → ℕ} {q n : ℕ} (h : q + n ≤ mappedQueues) :
    regDumpRange bar qdmaDmapRegs q n = queueRows bar q n := by
  unfold mappedQueues at h
  unfold regDumpRange queueRows
  apply List.flatMap_congr
  intro x hx
  obtain ⟨hstep, -, -, hle, -⟩ := good_dmap x hx
  rw [printRepeatedReg_eq (by omega)]
  apply List.map_congr_left
  intro i hi
  have hlt := List.mem_range'_1.mp hi
  have haddr : (x.repeated bar i).addr = x.addr + i * x.step :=
    repeated_addr (by rw [hstep]; rfl) (by rw [hstep]; omega)
  have hfmt : fmtInt (i : ℤ) = fmtDec i := if_neg (by omega)
  show RegRow.mk (x.repeated bar i).addr (x.name.toList ++ '_' :: fmtInt i)
    (bar ((x.repeated bar i).addr / 4)) true = _
  rw [haddr, hfmt]
  rfl

/-- No queues, no rows. -/
theorem regDumpRange_zero {bar : ℕ → ℕ} {start : ℕ} (hs : start < 2 ^ 32) :
    regDumpRange bar qdmaDmapRegs start 0 = [] := by
  apply List.flatMap_eq_nil_iff.mpr
  intro x _
  exact printRepeatedReg_zero bar x hs

/-- The registers of queues are mapped up to the last one. -/
theorem mapped_queueRows {bar : ℕ → ℕ} {q n : ℕ} (hn : n ≠ 0) :
    InMapping qdmaCfgBarSize (queueRows bar q n) ↔ q + n ≤ mappedQueues := by
  unfold qdmaCfgBarSize mappedQueues
  constructor
  · -- the last queue decides
    intro h
    obtain ⟨x, hx⟩ := List.exists_mem_of_ne_nil _ dmap_ne_nil
    obtain ⟨hstep, hfour, hlo, -⟩ := good_dmap x hx
    have hlast := h (x.ofQueue bar (q + n - 1)) (List.mem_flatMap.mpr ⟨x, hx,
      List.mem_map.mpr ⟨q + n - 1, List.mem_range'_1.mpr ⟨by omega, by omega⟩, rfl⟩⟩)
    have haddr : (x.ofQueue bar (q + n - 1)).addr = x.addr + (q + n - 1) * 0x10 := by
      rw [← hstep]
      rfl
    omega
  · intro h r hr
    obtain ⟨x, hx, hr⟩ := List.mem_flatMap.mp hr
    obtain ⟨i, hi, rfl⟩ := List.mem_map.mp hr
    obtain ⟨hstep, -, -, hle, -⟩ := good_dmap x hx
    have hlt := List.mem_range'_1.mp hi
    have haddr : (x.ofQueue bar i).addr = x.addr + i * 0x10 := by
      rw [← hstep]
      rfl
    omega

/-- **The rows of a range that fits** are those of its queues, and mapped. -/
theorem regDumpRange_fits (bar : ℕ → ℕ) {q n : ℕ} (h : n = 0 ∨ q + n ≤ mappedQueues) :
    regDumpRange bar qdmaDmapRegs (u32 q) (u32 n) = queueRows bar q n ∧
      InMapping qdmaCfgBarSize (queueRows bar q n) := by
  have hnil : queueRows bar q 0 = [] := by simp [queueRows]
  by_cases hn : n = 0
  · subst hn
    have hs : u32 q < 2 ^ 32 := Nat.mod_lt _ (by norm_num)
    rw [hnil, show u32 0 = 0 from rfl, regDumpRange_zero hs]
    exact ⟨rfl, fun r hr => absurd hr List.not_mem_nil⟩
  · have hle := h.resolve_left hn
    have hlt : q + n < 2 ^ 32 := by
      unfold mappedQueues at hle
      omega
    rw [u32_of_lt (by omega), u32_of_lt (by omega)]
    exact ⟨regDumpRange_eq hle, (mapped_queueRows hn).mpr hle⟩

/-! ## The dump of a line -/

/-- A line that is accepted as a dump asks for what is dumped. -/
theorem parseCmd_dump {argv : List String} {xcmd : XcmdInfo} {r : XcmdInfo × ℕ}
    (h : parseCmd argv xcmd = .ok r) (hop : r.1.op = .regDump) :
    (dmapAsked argv = none ∧ r.1.reg.rangeStart = 0 ∧ r.1.reg.rangeEnd = 0) ∨
      ∃ q n, dmapAsked argv = some (q, n) ∧ r.1.reg.rangeStart = u32 q ∧
        r.1.reg.rangeEnd = u32 n := by
  cases parseCmd_ok h with
  | devices hlist => exact nomatch hop.symm.trans hlist
  | info _ hinfo => exact nomatch hop.symm.trans hinfo
  | device hdev hname hfamily =>
      cases parseFamily_ok hdev hname rfl hfamily with
      | reg hline =>
          rw [hop] at hline
          generalize r.1.reg = reg at hline ⊢
          cases hline with
          | dump => exact .inl ⟨rfl, rfl, rfl⟩
          | dmap a b => exact .inr ⟨_, _, rfl, rfl, rfl⟩
      | queue hqueue =>
          have hqop := (queueLine_ok hdev hname rfl hqueue).range.choose_spec.2.2.2
          rw [hop] at hqop
          exact absurd hqop (by decide)
      | intr hintr _ => exact nomatch hop.symm.trans hintr
      | skipped _ hlist => exact nomatch hop.symm.trans hlist

/-- **When a dump stays inside what is mapped** and prints what the line asks for: the queues are
those whose registers are mapped, or none. -/
theorem reg_dump_iff {argv : List String} {xcmd : XcmdInfo} {r : XcmdInfo × ℕ}
    (h : parseCmd argv xcmd = .ok r) (hop : r.1.op = .regDump) (userBar configBar : ℕ → ℕ) :
    RightDump argv configBar (procRegDump userBar configBar r.1.reg) ↔ DumpFits argv := by
  obtain ⟨huser, hnames⟩ := regDumpMmap_good userBar (by decide) good_user
  obtain ⟨hconfig, hnames'⟩ := regDumpMmap_good configBar (by decide) good_config
  have hdmap : ∀ {s n : ℕ}, s < 2 ^ 32 → NamesFit (regDumpRange configBar qdmaDmapRegs s n) := by
    intro s n hs r hr
    obtain ⟨x, hx, hr⟩ := List.mem_flatMap.mp hr
    exact namesFit_repeated _ _ hs (good_dmap x hx).2.2.2.2 r hr
  -- whether it is right depends on the registers of queues alone
  have hright : RightDump argv configBar (procRegDump userBar configBar r.1.reg) ↔
      InMapping qdmaCfgBarSize (procRegDump userBar configBar r.1.reg).queues ∧
        ∀ q n, dmapAsked argv = some (q, n) →
          (procRegDump userBar configBar r.1.reg).queues = queueRows configBar q n := by
    refine ⟨fun hr => ⟨hr.queues, hr.asked⟩, fun hr => ⟨huser, hconfig, hr.1, ?_, hr.2⟩⟩
    apply (hnames.append hnames').append
    apply hdmap
    rcases parseCmd_dump h hop with ⟨-, hstart, -⟩ | ⟨q, n, -, hstart, -⟩
    · rw [hstart]
      norm_num
    · rw [hstart]
      exact Nat.mod_lt _ (by norm_num)
  rw [hright]
  unfold DumpFits procRegDump
  simp only
  rcases parseCmd_dump h hop with ⟨hnone, hstart, hend⟩ | ⟨q, n, hsome, hstart, hend⟩
  · rw [hstart, hend, hnone, regDumpRange_zero (by norm_num)]
    refine iff_of_true ⟨fun r hr => absurd hr List.not_mem_nil, fun _ _ hq => ?_⟩ fun _ _ hq => ?_
    · exact nomatch hq
    · exact nomatch hq
  · rw [hstart, hend, hsome]
    constructor
    · rintro ⟨hmap, hasked⟩ q' n' hq
      obtain ⟨rfl, rfl⟩ := Prod.mk.inj (Option.some.inj hq)
      rw [hasked q n rfl] at hmap
      by_cases hn : n = 0
      · exact .inl hn
      · exact .inr ((mapped_queueRows hn).mp hmap)
    · intro hfits
      have hrows := regDumpRange_fits configBar (hfits q n rfl)
      rw [hrows.1]
      refine ⟨hrows.2, fun q' n' hq => ?_⟩
      obtain ⟨rfl, rfl⟩ := Prod.mk.inj (Option.some.inj hq)
      rfl

/-- The registers of the first queues. -/
theorem reg_dump_first : RightDump ["dmactl", "qdma0", "reg", "dump", "dmap", "0", "4"] (fun _ => 0)
    (procRegDump (fun _ => 0) (fun _ => 0) { rangeStart := 0, rangeEnd := 4 }) := by
  have hparse : parseCmd ["dmactl", "qdma0", "reg", "dump", "dmap", "0", "4"] {} = .ok
      ({ op := .regDump, reg := { rangeStart := 0, rangeEnd := 4 } }, 7) := rfl
  refine (reg_dump_iff hparse rfl _ _).mpr fun q n h => ?_
  obtain ⟨rfl, rfl⟩ := Prod.mk.inj (Option.some.inj h)
  exact .inr (by decide)

/-- **One queue too many** is read behind the end, and a range that wraps before the registers. -/
theorem reg_dump_outside :
    parseCmd ["dmactl", "qdma0", "reg", "dump", "dmap", "1280", "1"] {} = .ok
        ({ op := .regDump, reg := { rangeStart := 1280, rangeEnd := 1 } }, 7) ∧
      (procRegDump (fun _ => 0) (fun _ => 0) { rangeStart := 1280, rangeEnd := 1 }).queues.map
        RegRow.addr = [0xB400, 0xB404, 0xB408, 0xB40C] ∧
      ¬ RightDump ["dmactl", "qdma0", "reg", "dump", "dmap", "1280", "1"] (fun _ => 0)
        (procRegDump (fun _ => 0) (fun _ => 0) { rangeStart := 1280, rangeEnd := 1 }) ∧
      (procRegDump (fun _ => 0) (fun _ => 0)
        { rangeStart := 4294967295, rangeEnd := 1 }).queues.map RegRow.addr
        = [0x63F0, 0x63F4, 0x63F8, 0x63FC] := by
  have haddrs : (procRegDump (fun _ => 0) (fun _ => 0)
      { rangeStart := 1280, rangeEnd := 1 }).queues.map RegRow.addr
      = [0xB400, 0xB404, 0xB408, 0xB40C] := by decide +kernel
  refine ⟨rfl, haddrs, fun h => ?_, by decide +kernel⟩
  obtain ⟨row, hrow, haddr⟩ := List.mem_map.mp
    (haddrs ▸ List.mem_cons_self : 0xB400 ∈ (procRegDump (fun _ => 0) (fun _ => 0)
      { rangeStart := 1280, rangeEnd := 1 }).queues.map RegRow.addr)
  have hmap := h.queues row hrow
  rw [haddr] at hmap
  exact absurd hmap (by decide)

end Qdma
