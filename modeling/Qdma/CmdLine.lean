/-
# The command line of the user tool

`parse_cmd` reads the words of the command line into a `struct xcmd_info`.  Its parts share a
cursor into `argv`: some are given it as a pointer, some return it, and a macro moves it on if
there is another word.  Each of them is a definition here, with the number, the word or the range
it reads; a word that is read at or behind `argc` ends in `pastEnd`.  The messages are left out,
and so is what only a build with `ERR_DEBUG` has.
-/
import Qdma.Types

namespace Qdma

/-! ## Numbers -/

/-- `isspace`. -/
def isSpace (c : Char) : Bool := c = ' ' || (decide (9 ≤ c.toNat) && decide (c.toNat ≤ 13))

/-- The value of a digit. -/
def digitVal (c : Char) : Option ℕ :=
  if '0' ≤ c ∧ c ≤ '9' then some (c.toNat - 48)
  else if 'a' ≤ c ∧ c ≤ 'z' then some (c.toNat - 87)
  else if 'A' ≤ c ∧ c ≤ 'Z' then some (c.toNat - 55)
  else none

/-- It is a digit of the base. -/
def isDigitOf (base : ℕ) (c : Char) : Bool :=
  match digitVal c with
  | some d => decide (d < base)
  | none => false

/-- The number some digits stand for. -/
def ofDigits (base : ℕ) (ds : List Char) : ℕ :=
  ds.foldl (fun n c => n * base + (digitVal c).getD 0) 0

/-- The prefix of base 16 or 8, when `strtoul` is to find the base. -/
def findBase (s : List Char) : ℕ × List Char :=
  match s with
  | '0' :: x :: h :: t =>
      if (x = 'x' ∨ x = 'X') ∧ isDigitOf 16 h = true then (16, h :: t) else (8, s)
  | '0' :: _ => (8, s)
  | _ => (10, s)

/-- The number at the front of a string and what follows it, if there is one: with blanks and a
sign before it, it is the `unsigned long` that `strtoul` returns. -/
def scanNumber (base : ℕ) (s : List Char) : Option (ℕ × List Char) :=
  let s := s.dropWhile isSpace
  let neg := s.head? = some '-'
  let s := if s.head? = some '-' ∨ s.head? = some '+' then s.tail else s
  let (base, s) := if base = 0 then findBase s else (base, s)
  let ds := s.takeWhile (isDigitOf base)
  if ds = [] then none
  else
    let n := ofDigits base ds
    some (if n ≥ 2 ^ 64 then 2 ^ 64 - 1 else if neg then (2 ^ 64 - n) % 2 ^ 64 else n,
      s.dropWhile (isDigitOf base))

/-- `strtoul(s, &p, 0)`, with the string at `p`. -/
def strtoul (s : List Char) : ℕ × List Char := (scanNumber 0 s).getD (0, s)

/-- `arg_read_int`: what it returns, and `*v`. -/
def argReadInt (s : List Char) : ℤ × ℕ :=
  let (v, p) := strtoul s
  (if p ≠ [] then einval else 0, u32 v)

/-- `sscanf(s, "%hhu", &v)`: the new value of `v`. -/
def sscanfHhu (s : List Char) (v : ℕ) : ℕ :=
  match scanNumber 10 s with
  | some (n, _) => n % 256
  | none => v

/-! ## Data -/

/-- `enum xnl_op_t`, in its order. -/
inductive XnlOp where
  | devList
  | devInfo
  | regDump
  | regRd
  | regWrt
  | qList
  | qAdd
  | qStart
  | qStop
  | qDel
  | qDump
  | qDesc
  | qWrb
  | qRxPkt
  | intrRingDump
  deriving DecidableEq

/-- `struct xcmd_reg`. -/
structure XcmdReg where
  sflags : BitVec 32 := 0
  bar : ℕ := 0
  reg : ℕ := 0
  val : ℕ := 0
  rangeStart : ℕ := 0
  rangeEnd : ℕ := 0

/-- `struct xcmd_intr`, with the bits of its indices, which are of type `int`. -/
structure XcmdIntr where
  vector : ℕ := 0
  startIdx : ℕ := 0
  endIdx : ℕ := 0

/-- `struct xcmd_q_parm`; the sizes and indices from `wrbEntrySize` on are bytes. -/
structure XcmdQParm where
  sflags : BitVec 32 := 0
  flags : BitVec 32 := 0
  idx : ℕ := 0
  numQ : ℕ := 0
  rangeStart : ℕ := 0
  rangeEnd : ℕ := 0
  wrbEntrySize : ℕ := 0
  qrngszIdx : ℕ := 0
  c2hBufszIdx : ℕ := 0
  wrbTmrIdx : ℕ := 0
  wrbCntrIdx : ℕ := 0
  wrbTrigMode : ℕ := 0

/-- The part of `struct xcmd_info` that `parse_cmd` fills; of the union it uses one member. -/
structure XcmdInfo where
  vf : Bool := false
  op : XnlOp := .devList
  ifIdx : ℕ := 0
  reg : XcmdReg := {}
  intr : XcmdIntr := {}
  qparm : XcmdQParm := {}

/-- `XCMD_REG_F_BAR_SET`. -/
def xcmdRegFBarSet : BitVec 32 := 0x1

/-- `XCMD_REG_F_REG_SET`. -/
def xcmdRegFRegSet : BitVec 32 := 0x2

/-- `XCMD_REG_F_VAL_SET`. -/
def xcmdRegFValSet : BitVec 32 := 0x4

/-- `XNL_F_QMODE_ST`. -/
def xnlFQmodeSt : BitVec 32 := 0x1

/-- `XNL_F_QMODE_MM`. -/
def xnlFQmodeMm : BitVec 32 := 0x2

/-- `XNL_F_QDIR_H2C`. -/
def xnlFQdirH2c : BitVec 32 := 0x4

/-- `XNL_F_QDIR_C2H`. -/
def xnlFQdirC2h : BitVec 32 := 0x8

/-- `XNL_F_QDIR_BOTH`. -/
def xnlFQdirBoth : BitVec 32 := xnlFQdirH2c ||| xnlFQdirC2h

/-- `XNL_F_PFETCH_EN`. -/
def xnlFPfetchEn : BitVec 32 := 0x10

/-- `XNL_F_DESC_BYPASS_EN`. -/
def xnlFDescBypassEn : BitVec 32 := 0x20

/-- `XNL_F_FETCH_CREDIT`. -/
def xnlFFetchCredit : BitVec 32 := 0x40

/-- `XNL_F_WBK_ACC_EN`. -/
def xnlFWbkAccEn : BitVec 32 := 0x80

/-- `XNL_F_WBK_EN`. -/
def xnlFWbkEn : BitVec 32 := 0x100

/-- `XNL_F_WBK_PEND_CHK`. -/
def xnlFWbkPendChk : BitVec 32 := 0x200

/-- `XNL_F_WRB_STAT_DESC_EN`. -/
def xnlFWrbStatDescEn : BitVec 32 := 0x400

/-- `XNL_F_C2H_CMPL_INTR_EN`. -/
def xnlFC2hCmplIntrEn : BitVec 32 := 0x800

/-- `XNL_F_CMPL_UDD_EN`. -/
def xnlFCmplUddEn : BitVec 32 := 0x1000

/-- `enum q_parm_type`, in its order. -/
inductive QParmType where
  | idx
  | mode
  | dir
  | desc
  | wrb
  | wrbsz
  | rngszIdx
  | c2hBufszIdx
  | wrbTmrIdx
  | wrbCntrIdx
  | wrbTrigMode
  deriving DecidableEq

/-- The bit of a parameter, `1 << QPARM_...`. -/
def QParmType.bit (t : QParmType) : BitVec 32 := 1#32 <<< t.ctorIdx

/-- `XNL_QIDX_INVALID`. -/
def xnlQidxInvalid : ℕ := 0xFFFF

/-- `XNL_ST_C2H_WRB_DESC_SIZE_RSVD`. -/
def xnlStC2hWrbDescSizeRsvd : ℕ := 3

/-- `QDMA_MAX_INT_RING_ENTRIES`. -/
def qdmaMaxIntRingEntries : ℕ := 512

/-- The addresses in `qdma_config_regs`. -/
def qdmaConfigRegs : List ℕ :=
  [0x00, 0x04, 0x08, 0x0C, 0x10, 0x14, 0x18, 0x1C, 0x40, 0x44, 0x60, 0x100, 0x104, 0x108, 0x10C,
    0x110, 0x114, 0x118, 0x11C, 0x120, 0x128, 0x12C, 0x130, 0x134, 0x1B8, 0x1C0, 0x1C8, 0x204,
    0x244, 0x248, 0x24C, 0x250, 0x254, 0x258, 0x25C, 0x264, 0x268, 0x26C, 0x270, 0x278, 0x400,
    0x804, 0x814, 0x824, 0x828, 0x82C, 0xA00, 0xA40, 0xA80, 0xA84, 0xA88, 0xA8C, 0xA90, 0xA94,
    0xA98, 0xA9C, 0xAA0, 0xAA4, 0xAA8, 0xAAC, 0xAB0, 0xAF0, 0xAF4, 0xAF8, 0xAFC, 0xB00, 0xB04,
    0xB08, 0xB0C, 0xB10, 0xB14, 0xB18, 0xB1C, 0xB2C, 0xB30, 0xB34, 0xB38, 0xB3C, 0xB40, 0xB44,
    0xB48, 0xB4C, 0xB50, 0xB54, 0xB58, 0xB5C, 0xB60, 0xB64, 0xB68, 0xB6C, 0xB70, 0xB74, 0xB78,
    0xB7C, 0xB80, 0xB84, 0xB88, 0xB8C, 0xB90, 0xB94, 0xB98, 0xB9C, 0xBA0, 0xBA4, 0xBA8, 0xE00,
    0xE04, 0xE08, 0xE0C, 0x1004, 0x1040, 0x1048, 0x1054, 0x1058, 0x105C, 0x10C0, 0x10C4, 0x10CC,
    0x10E8, 0x1204, 0x1240, 0x1248, 0x1254, 0x1258, 0x125C, 0x12C0, 0x12C4, 0x12CC, 0x12E8,
    0x2400, 0x2404, 0x2408, 0x240C, 0x2410, 0x2420, 0x2500, 0x2C00, 0x3000, 0]

/-! ## The cursor -/

/-- How a part of `parse_cmd` ends before its end: it returns a number to its caller, calls
`exit`, reads `argv` at or behind `argc`, goes on with a value that has not been set, or its loop
has had its rounds. -/
inductive ParseStop where
  | ret (rv : ℤ)
  | exit (status : ℕ)
  | pastEnd
  | uninit
  | fuel

/-- A part of `parse_cmd`. -/
abbrev Parse (α : Type) := Except ParseStop α

/-- `argv[i]`. -/
def argAt (argv : List String) (i : ℕ) : Parse String :=
  match argv[i]? with
  | some s => .ok s
  | none => .error .pastEnd

/-- `get_next_arg`; the message has the word that nothing follows. -/
def getNextArg (argv : List String) (i : ℕ) : Parse ℕ :=
  if i + 1 ≥ argv.length then do
    let _ ← argAt argv i
    .error (.ret einval)
  else .ok (i + 1)

/-- A call of `arg_read_int` whose error is returned. -/
def readInt (s : String) : Parse ℕ :=
  let (rv, v) := argReadInt s.toList
  if rv < 0 then .error (.ret rv) else .ok v

/-- `next_arg_read_int`: what it returns, the cursor, and the number it has stored, if any. -/
def nextArgReadInt (argv : List String) (i : ℕ) : Parse (ℤ × ℕ × Option ℕ) :=
  match getNextArg argv i with
  | .ok i => do
      let s ← argAt argv i
      let (rv, v) := argReadInt s.toList
      .ok (rv, i, some v)
  | .error (.ret rv) => .ok (rv, i, none)
  | .error e => .error e

/-- A call of it whose error is returned. -/
def nextInt (argv : List String) (i : ℕ) : Parse (ℕ × ℕ) := do
  let i ← getNextArg argv i
  let s ← argAt argv i
  let v ← readInt s
  .ok (i, v)

/-- `read_range`: the cursor behind the range, and the range.  That `v2 < v1` compares the two
pointers, which are in order. -/
def readRange (argv : List String) (i : ℕ) : Parse (ℕ × ℕ × ℕ) := do
  let s ← argAt argv i
  let v1 ← readInt s
  let i ← getNextArg argv i
  let s ← argAt argv i
  let v2 ← readInt s
  .ok (i + 1, v1, v2)

/-! ## Devices and registers -/

/-- `parse_ifname`: `vf` and `if_idx`, if the name is one. -/
def parseIfname (name : String) : Option (Bool × ℕ) :=
  let cs := name.toList
  if name.utf8ByteSize ≥ 10 then none
  else if cs.take 4 ≠ ['q', 'd', 'm', 'a'] then none
  else
    let vf : Bool := (cs.drop 4).take 2 = ['v', 'f']
    let digits := if vf then cs.drop 6 else cs.drop 4
    if !digits.all (isDigitOf 10) then none
    else
      let (rv, v) := argReadInt digits
      if rv < 0 then none else some (vf, v % 256)

/-- `parse_dev_cmd`. -/
def parseDevCmd (argv : List String) (i : ℕ) (x : XcmdInfo) : Parse (XcmdInfo × ℕ) := do
  let w ← argAt argv i
  if w = "list" then .ok ({ x with op := .devList }, i + 1) else .ok (x, i)

/-- `validate_regcmd`. -/
def validateRegcmd (op : XnlOp) (r : XcmdReg) : ℤ :=
  match op with
  | .regDump => 0
  | .regRd | .regWrt =>
      if r.bar ≠ 0 ∧ r.bar ≠ 2 then einval
      else if r.bar = 0 ∧ r.reg ∉ qdmaConfigRegs then einval
      else 0
  | _ => einval

/-- The register of a read or a write: `[bar <N>] <addr>`. -/
def readBarAddr (argv : List String) (i : ℕ) : Parse (XcmdReg × ℕ) := do
  let i ← getNextArg argv i
  let w ← argAt argv i
  let (r, i) ← if w = "bar" then do
      let (i, v) ← nextInt argv i
      let i ← getNextArg argv i
      .ok ({ bar := v, sflags := xcmdRegFBarSet }, i)
    else .ok (({}, i) : XcmdReg × ℕ)
  let s ← argAt argv i
  let v ← readInt s
  .ok ({ r with reg := v, sflags := r.sflags ||| xcmdRegFRegSet }, i)

/-- The words of `parse_reg_cmd`: the operation, what it is to do, and the cursor. -/
def readRegWords (argv : List String) (i : ℕ) (op : XnlOp) : Parse (XnlOp × XcmdReg × ℕ) := do
  let w ← argAt argv i
  if w = "dump" then
    let i := i + 1
    if i < argv.length then
      let w ← argAt argv i
      if w = "dmap" then
        let i ← getNextArg argv i
        let (i, v1, v2) ← readRange argv i
        .ok (.regDump, { rangeStart := v1, rangeEnd := v2 }, i)
      else .ok (.regDump, {}, i)
    else .ok (.regDump, {}, i)
  else if w = "read" then
    let (r, i) ← readBarAddr argv i
    .ok (.regRd, r, i + 1)
  else if w = "write" then
    let (r, i) ← readBarAddr argv i
    let (i, v) ← nextInt argv i
    .ok (.regWrt, { r with val := v, sflags := r.sflags ||| xcmdRegFValSet }, i + 1)
  else .ok (op, {}, i)

/-- `parse_reg_cmd`. -/
def parseRegCmd (argv : List String) (i : ℕ) (x : XcmdInfo) : Parse (XcmdInfo × ℕ) := do
  let (op, r, i) ← readRegWords argv i x.op
  let argsValid := validateRegcmd op r
  if argsValid = 0 then .ok ({ x with op := op, reg := r }, i) else .error (.ret argsValid)

/-! ## Interrupt rings -/

/-- The vector of a dump: `[vector <N>]`. -/
def readVector (argv : List String) (i : ℕ) : Parse (ℕ × ℕ) := do
  let i ← getNextArg argv i
  let w ← argAt argv i
  if w = "vector" then nextInt argv i else .ok (i, 0)

/-- `parse_intr_cmd`. -/
def parseIntrCmd (argv : List String) (i : ℕ) (x : XcmdInfo) : Parse (XcmdInfo × ℕ) := do
  let w ← argAt argv i
  if w = "dump" then
    let x := { x with op := .intrRingDump }
    let (i, v) ← readVector argv i
    let (rv, i, v1) ← nextArgReadInt argv i
    if rv < 0 then
      .ok ({ x with intr := { vector := v, startIdx := 0, endIdx := qdmaMaxIntRingEntries - 1 } },
        i + 1)
    else
      let (rv, i, v2) ← nextArgReadInt argv i
      .ok ({ x with
          intr := {
            vector := v
            startIdx := v1.getD 0
            endIdx := if rv < 0 then qdmaMaxIntRingEntries - 1 else v2.getD 0 } }, i + 1)
  else .ok (x, i + 1)

/-! ## Queues -/

/-- A parameter with a number: the cursor behind it, the number stored, and its bit set. -/
def readNumber (argv : List String) (i : ℕ) (q : XcmdQParm) (fArgSet : BitVec 32) (t : QParmType)
    (store : XcmdQParm → ℕ → XcmdQParm) : Parse (ℕ × XcmdQParm × BitVec 32) := do
  let (i, v) ← nextInt argv i
  .ok (i + 1, store q v, fArgSet ||| t.bit)

/-- A parameter with a range. -/
def readRangeParm (argv : List String) (i : ℕ) (q : XcmdQParm) (fArgSet : BitVec 32)
    (t : QParmType) : Parse (ℕ × XcmdQParm × BitVec 32) := do
  let i ← getNextArg argv i
  let (i, v1, v2) ← readRange argv i
  .ok (i, { q with rangeStart := v1, rangeEnd := v2 }, fArgSet ||| t.bit)

/-- A parameter with a word of a given kind. -/
def readWord {α : Type} (argv : List String) (i : ℕ) (q : XcmdQParm) (fArgSet : BitVec 32)
    (t : QParmType) (kind : String → Option α) (store : XcmdQParm → α → XcmdQParm) :
    Parse (ℕ × XcmdQParm × BitVec 32) := do
  let i ← getNextArg argv i
  let w ← argAt argv i
  match kind w with
  | some a => .ok (i + 1, store q a, fArgSet ||| t.bit)
  | none => .error (.ret einval)

/-- A mode. -/
def modeFlag (w : String) : Option (BitVec 32) :=
  if w = "mm" then some xnlFQmodeMm
  else if w = "st" then some xnlFQmodeSt
  else none

/-- A direction. -/
def dirFlag (w : String) : Option (BitVec 32) :=
  if w = "h2c" then some xnlFQdirH2c
  else if w = "c2h" then some xnlFQdirC2h
  else if w = "bi" then some xnlFQdirBoth
  else none

/-- A trigger mode. -/
def trigMode (w : String) : Option ℕ :=
  if w = "every" then some 1
  else if w = "usr_cnt" then some 2
  else if w = "usr" then some 3
  else if w = "usr_tmr" then some 4
  else if w = "dis" then some 0
  else none

/-- Flags are set. -/
def XcmdQParm.setFlags (q : XcmdQParm) (f : BitVec 32) : XcmdQParm :=
  { q with flags := q.flags ||| f }

/-- Flags are cleared. -/
def XcmdQParm.clearFlags (q : XcmdQParm) (f : BitVec 32) : XcmdQParm :=
  { q with flags := q.flags &&& ~~~f }

/-- The loop body of `read_qparm`: one parameter. -/
def readQparmStep (argv : List String) (i : ℕ) (q : XcmdQParm) (fArgSet : BitVec 32) :
    Parse (ℕ × XcmdQParm × BitVec 32) := do
  let w ← argAt argv i
  if w = "idx" then
    readNumber argv i q fArgSet .idx (fun q v => { q with idx := v, numQ := 1 })
  else if w = "list" then
    let (i, v) ← nextInt argv i
    readNumber argv i { q with idx := v } fArgSet .idx (fun q v => { q with numQ := v })
  else if w = "mode" then readWord argv i q fArgSet .mode modeFlag .setFlags
  else if w = "dir" then readWord argv i q fArgSet .dir dirFlag .setFlags
  else if w = "idx_bufsz" then
    readNumber argv i q fArgSet .c2hBufszIdx (fun q v => { q with c2hBufszIdx := v % 256 })
  else if w = "idx_ringsz" then
    readNumber argv i q fArgSet .rngszIdx (fun q v => { q with qrngszIdx := v % 256 })
  else if w = "idx_tmr" then
    readNumber argv i q fArgSet .wrbTmrIdx (fun q v => { q with wrbTmrIdx := v % 256 })
  else if w = "idx_cntr" then
    readNumber argv i q fArgSet .wrbCntrIdx (fun q v => { q with wrbCntrIdx := v % 256 })
  else if w = "trigmode" then
    readWord argv i q fArgSet .wrbTrigMode trigMode (fun q v => { q with wrbTrigMode := v })
  else if w = "desc" then readRangeParm argv i q fArgSet .desc
  else if w = "wrb" then readRangeParm argv i q fArgSet .wrb
  else if w = "wrbsz" then
    readWord argv i q fArgSet .wrbsz some
      (fun q s => { q with wrbEntrySize := sscanfHhu s.toList q.wrbEntrySize })
  else if w = "pfetch_en" then .ok (i + 1, q.setFlags xnlFPfetchEn, fArgSet)
  else if w = "bypass_en" then .ok (i + 1, q.setFlags xnlFDescBypassEn, fArgSet)
  else if w = "c2h_cmpl_intr_en" then .ok (i + 1, q.setFlags xnlFC2hCmplIntrEn, fArgSet)
  else if w = "dis_wbk" then .ok (i + 1, q.clearFlags xnlFWbkEn, fArgSet)
  else if w = "dis_wbk_acc" then .ok (i + 1, q.clearFlags xnlFWbkAccEn, fArgSet)
  else if w = "dis_wbk_pend_chk" then .ok (i + 1, q.clearFlags xnlFWbkPendChk, fArgSet)
  else if w = "dis_fetch_credit" then .ok (i + 1, q.clearFlags xnlFFetchCredit, fArgSet)
  else if w = "dis_wrb_stat" then .ok (i + 1, q.clearFlags xnlFWrbStatDescEn, fArgSet)
  else if w = "c2h_udd_en" then .ok (i + 1, q.setFlags xnlFCmplUddEn, fArgSet)
  else .error (.ret einval)

/-- The loop, for at most `fuel` rounds. -/
def readQparmLoop (argv : List String) :
    ℕ → ℕ → XcmdQParm → BitVec 32 → Parse (XcmdQParm × BitVec 32)
  | 0, _, _, _ => .error .fuel
  | fuel + 1, i, q, fArgSet =>
      if i < argv.length then do
        let (i, q, fArgSet) ← readQparmStep argv i q fArgSet
        readQparmLoop argv fuel i q fArgSet
      else .ok (q, fArgSet)

/-- The end of `read_qparm`: the direction is H2C unless one is given. -/
def finishQparm (q : XcmdQParm) (fArgSet : BitVec 32) : XcmdQParm :=
  if fArgSet &&& QParmType.dir.bit = 0 then
    { q.setFlags xnlFQdirH2c with sflags := fArgSet ||| QParmType.dir.bit }
  else { q with sflags := fArgSet }

/-- `read_qparm`, with the parameters `fArgRequired` required.  It returns `argc`. -/
def readQparm (argv : List String) (i : ℕ) (q : XcmdQParm) (fArgRequired : BitVec 32) :
    Parse XcmdQParm := do
  let (q, fArgSet) ←
    readQparmLoop argv (argv.length + 1) i { q with idx := xnlQidxInvalid } 0
  if fArgSet &&& fArgRequired ≠ fArgRequired then .error (.ret einval)
  else .ok (finishQparm q fArgSet)

/-- `IS_SIZE_IDX_VALID`. -/
def isSizeIdxValid (x : ℕ) : Bool := decide (x < 16)

/-- A started queue's parameters, as `validate_qcmd` checks them. -/
def validateStart (q : XcmdQParm) : ℤ :=
  if !isSizeIdxValid q.c2hBufszIdx || !isSizeIdxValid q.qrngszIdx ||
      !isSizeIdxValid q.wrbCntrIdx || !isSizeIdxValid q.wrbTmrIdx ||
      decide (q.wrbEntrySize > xnlStC2hWrbDescSizeRsvd) then einval
  else if q.flags &&& xnlFCmplUddEn ≠ 0 then
    if q.sflags &&& QParmType.wrbsz.bit = 0 then einval
    else if q.wrbEntrySize = xnlStC2hWrbDescSizeRsvd then einval
    else 0
  else 0

/-- `validate_qcmd`.  What it ignores with a warning stays as it is. -/
def validateQcmd (op : XnlOp) (q : XcmdQParm) : ℤ :=
  match op with
  | .qList | .qAdd | .qStop | .qDel | .qDesc => 0
  | .qStart => validateStart q
  | .qWrb | .qDump =>
      if q.sflags &&& (QParmType.desc.bit ||| QParmType.wrb.bit)
          = QParmType.desc.bit ||| QParmType.wrb.bit then einval
      else 0
  | .qRxPkt => if q.flags &&& xnlFQdirH2c ≠ 0 then einval else 0
  | _ => einval

/-- `q add`: MM unless a mode is given, and not both. -/
def addMode (q : XcmdQParm) : Parse XcmdQParm :=
  if q.sflags &&& QParmType.mode.bit ≠ 0 then
    if q.flags &&& (xnlFQmodeMm ||| xnlFQmodeSt) = xnlFQmodeMm ||| xnlFQmodeSt then
      .error (.ret einval)
    else .ok q
  else .ok { q.setFlags xnlFQmodeMm with sflags := q.sflags ||| QParmType.mode.bit }

/-- The flags that `q start` sets. -/
def startFlags : BitVec 32 :=
  xnlFWbkEn ||| xnlFWbkAccEn ||| xnlFWbkPendChk ||| xnlFWrbStatDescEn ||| xnlFFetchCredit

/-- `q start`: the write-back flags are set, and the completion size gets a default.  In C `==` is
stronger than `&`, so that only `XNL_F_QMODE_ST` is tested. -/
def startDefaults (q : XcmdQParm) : XcmdQParm :=
  let q := q.setFlags startFlags
  let eq : BitVec 32 :=
    if xnlFQdirC2h ||| xnlFQmodeSt = xnlFQdirC2h ||| xnlFQmodeSt then 1 else 0
  if q.flags &&& eq ≠ 0 then
    if q.sflags &&& QParmType.wrbsz.bit = 0 then
      { q with wrbEntrySize := 3, sflags := q.sflags ||| QParmType.wrbsz.bit }
    else q
  else q

/-- `q dump`: the ring that is asked for. -/
def dumpOp (q : XcmdQParm) : Parse XnlOp :=
  if q.sflags &&& (QParmType.desc.bit ||| QParmType.wrb.bit)
      = QParmType.desc.bit ||| QParmType.wrb.bit then .error (.ret einval)
  else if q.sflags &&& QParmType.desc.bit ≠ 0 then .ok .qDesc
  else if q.sflags &&& QParmType.wrb.bit ≠ 0 then .ok .qWrb
  else .ok .qDump

/-- The queue command with the name `w`: its number, and the parameters that follow it.  Without
such a command `rv` is not set. -/
def readQWords (argv : List String) (i : ℕ) (w : String) (q : XcmdQParm) :
    Parse (XnlOp × XcmdQParm) :=
  if w = "add" then do
    let i ← getNextArg argv i
    let q ← readQparm argv i q QParmType.idx.bit
    let q ← addMode q
    .ok (.qAdd, q)
  else if w = "start" then do
    let i ← getNextArg argv i
    let q ← readQparm argv i q QParmType.idx.bit
    .ok (.qStart, startDefaults q)
  else if w = "stop" then do
    let i ← getNextArg argv i
    let q ← readQparm argv i q QParmType.idx.bit
    .ok (.qStop, q)
  else if w = "del" then do
    let i ← getNextArg argv i
    let q ← readQparm argv i q QParmType.idx.bit
    .ok (.qDel, q)
  else if w = "dump" then do
    let i ← getNextArg argv i
    let q ← readQparm argv i q QParmType.idx.bit
    let op ← dumpOp q
    .ok (op, q)
  else if w = "pkt" then do
    let i ← getNextArg argv i
    let q ← readQparm argv i q QParmType.idx.bit
    .ok (.qRxPkt, q)
  else .error .uninit

/-- `parse_q_cmd`. -/
def parseQCmd (argv : List String) (i : ℕ) (x : XcmdInfo) : Parse (XcmdInfo × ℕ) := do
  let w ← argAt argv i
  if w = "list" then .ok ({ x with op := .qList }, i + 1)
  else
    let (op, q) ← readQWords argv i w x.qparm
    let argsValid := validateQcmd op q
    if argsValid = 0 then .ok ({ x with op := op, qparm := q }, argv.length)
    else .error (.ret argsValid)

/-! ## The whole line -/

/-- The end of `parse_cmd`: nothing is left over. -/
def parseDone (argv : List String) (r : XcmdInfo × ℕ) : Parse (XcmdInfo × ℕ) :=
  if r.2 < argv.length then do
    let _ ← argAt argv r.2
    .error (.ret einval)
  else .ok r

/-- `parse_cmd`, with the cursor if it returns 0.  It clears what is in `xcmd` before. -/
def parseCmd (argv : List String) (_xcmd : XcmdInfo) : Parse (XcmdInfo × ℕ) := do
  let x : XcmdInfo := {}
  if argv.length = 1 then .error (.exit 1)
  else
    let w ← argAt argv 1
    if argv.length = 2 ∧ (w = "?" ∨ w = "-h" ∨ w = "help" ∨ w = "--help") then .error (.exit 0)
    else if argv.length = 2 ∧ (w = "-v" ∨ w = "--version") then .error (.exit 0)
    else if w = "dev" then do
      let r ← parseDevCmd argv 2 x
      parseDone argv r
    else
      match parseIfname w with
      | none => .error (.ret einval)
      | some (vf, ifIdx) =>
          let x := { x with vf := vf, ifIdx := ifIdx }
          if argv.length = 2 then parseDone argv ({ x with op := .devInfo }, 2)
          else do
            let f ← argAt argv 2
            if f = "reg" then do
              let r ← parseRegCmd argv 3 x
              parseDone argv r
            else if f = "q" then do
              let r ← parseQCmd argv 3 x
              parseDone argv r
            else if f = "intring" then do
              let r ← parseIntrCmd argv 3 x
              parseDone argv r
            else .error (.ret einval)

end Qdma
