/-
# The mailbox and its PF side

The messages functions exchange, and the handler `qdma_mbox_proc` of a PF: it takes the
messages of its mailbox one after another, does what each asks for and answers those that
wait.  What the handler reaches is part of the model: the FMAP registers, the VF table, the
CSR tables and the context memory behind the indirect commands.

The device's answers are streams of the state, so that a run of the handler is a function:
`cmdAns` for the indirect commands, `sendOk` for the outgoing mailbox, `offline` for the
flag checked after each message.
-/
import Qdma.Fmap

namespace Qdma

/-! ## Messages -/

/-- `-EBUSY`. -/
def ebusy : ℤ := -16

/-- `-EAGAIN`. -/
def eagain : ℤ := -11

/-- `-ETIME`. -/
def etime : ℤ := -62

/-- `MBOX_STATUS_GOOD`. -/
def mboxStatusGood : ℤ := 0

/-- `MBOX_STATUS_ERR`. -/
def mboxStatusErr : ℤ := 1

/-- `MBOX_STATUS_EINVAL`. -/
def mboxStatusEinval : ℤ := 2

/-- `enum mbox_msg_op`; the field has other values too. -/
inductive MboxOp where
  | hello
  | bye
  | reset
  | fmap
  | csr
  | intrCtxt
  | qctxtWrt
  | qctxtRd
  | qctxtClr
  | other (n : ℕ)
  deriving DecidableEq

/-- `struct hw_descq_context`. -/
structure HwDescqContext where
  sw : List ℕ := [0, 0, 0, 0]
  prefetch : List ℕ := [0, 0]
  wrb : List ℕ := [0, 0, 0, 0]
  hw : List ℕ := [0, 0]
  cr : List ℕ := [0]
  qid2vec : List ℕ := [0]
  deriving DecidableEq

/-- The body of `struct mbox_msg_fmap`. -/
structure MboxFmap where
  qbase : ℕ := 0
  qmax : ℕ := 0
  deriving DecidableEq

/-- The body of `struct mbox_msg_csr`. -/
structure MboxCsr where
  type : ℕ := 0
  v : List ℕ := List.replicate 16 0
  wbAcc : ℕ := 0
  deriving DecidableEq

/-- The body of `struct mbox_msg_qctxt`. -/
structure MboxQctxt where
  c2h : Bool := false
  st : Bool := false
  qid : ℕ := 0
  context : HwDescqContext := {}
  deriving DecidableEq

/-- `struct mbox_msg`: the header and the body in the view its `op` selects.  An untouched
message is one that `memset` cleared. -/
structure MboxMsg where
  op : MboxOp := .other 0
  sent : Bool := false
  rcv : Bool := false
  ack : Bool := false
  wait : Bool := false
  src : ℕ := 0
  dst : ℕ := 0
  status : ℤ := 0
  fmap : MboxFmap := {}
  csr : MboxCsr := {}
  qctxt : MboxQctxt := {}
  deriving DecidableEq

/-! ## The PF -/

/-- `struct qdma_vf_info`. -/
structure VfInfo where
  funcId : ℕ
  qbase : ℕ
  qmax : ℕ
  deriving DecidableEq

/-- `QDMA_FUNC_ID_INVALID`. -/
def qdmaFuncIdInvalid : ℕ := 256

/-- The contexts an indirect command selects. -/
inductive CtxtSel where
  | swC2h
  | swH2c
  | hwC2h
  | hwH2c
  | crC2h
  | crH2c
  | wrb
  | pftch
  | qid2vec
  deriving DecidableEq

/-- How the device takes an indirect command: it completes, stays busy, stays busy on the
read back, or reads back something else. -/
inductive CtxtAns where
  | ok
  | busy
  | readBusy
  | mismatch

/-- A PF: what its mailbox handler reads and writes, and the answers it will get. -/
structure PfDev where
  funcId : ℕ := 0
  qsetsBase : ℕ := 0
  qsetsMax : ℕ := 0
  vfInfo : List VfInfo := []
  fmapReg : ℕ → ℕ := fun _ => 0
  ringSz : List ℕ := []
  bufSz : List ℕ := []
  timerCnt : List ℕ := []
  cntTh : List ℕ := []
  wbAcc : ℕ := 0
  ctxt : CtxtSel → ℕ → ℕ → ℕ := fun _ _ _ => 0
  cmds : ℕ := 0
  cmdAns : ℕ → CtxtAns := fun _ => .ok
  sends : ℕ := 0
  sendOk : ℕ → Bool := fun _ => true
  checks : ℕ := 0
  offline : ℕ → Bool := fun _ => false

/-- `xdev_sriov_vf_offline`. -/
def xdevSriovVfOffline (vfs : List VfInfo) (funcId : ℕ) : List VfInfo :=
  vfs.map (fun vf => if vf.funcId = funcId then ⟨qdmaFuncIdInvalid, 0, 0⟩ else vf)

/-- `xdev_sriov_vf_online`. -/
def xdevSriovVfOnline : List VfInfo → ℕ → List VfInfo
  | [], _ => []
  | vf :: vfs, funcId =>
      if vf.funcId = qdmaFuncIdInvalid then { vf with funcId := funcId } :: vfs
      else vf :: xdevSriovVfOnline vfs funcId

/-- `xdev_sriov_vf_fmap`. -/
def xdevSriovVfFmap : List VfInfo → ℕ → ℕ → ℕ → List VfInfo
  | [], _, _, _ => []
  | vf :: vfs, funcId, qbase, qmax =>
      if vf.funcId = funcId then { vf with qbase := u16 qbase, qmax := u16 qmax } :: vfs
      else vf :: xdevSriovVfFmap vfs funcId qbase qmax

/-- `hw_set_fmap`. -/
def PfDev.hwSetFmap (d : PfDev) (m : Fmap) : PfDev :=
  { d with fmapReg := Function.update d.fmapReg m.funcId (Qdma.hwSetFmap m) }

/-! ## Indirect context commands -/

/-- A command of `hw_indirect_ctext_prog` with its data. -/
inductive CtxtCmd where
  | clr
  | inv
  | rd
  | wr (data : List ℕ)

/-- `IND_CTXT_CMD_QID_MASK`. -/
def indCtxtCmdQidMask : ℕ := 0x7FF

/-- The queue of a command with `qid`: nobody cuts `qid` to the field of the command register, and
the device looks at the field. -/
def hwQid (qid : ℕ) : ℕ := qid &&& indCtxtCmdQidMask

theorem hwQid_of_lt {qid : ℕ} (h : qid < 2048) : hwQid qid = qid := by
  unfold hwQid
  rw [show indCtxtCmdQidMask = 2 ^ 11 - 1 from rfl, Nat.and_two_pow_sub_one_eq_mod]
  exact Nat.mod_eq_of_lt h

example : hwQid 2053 = 5 := by decide

/-- The context memory with other words for one context. -/
def PfDev.setCtxt (d : PfDev) (sel : CtxtSel) (qid : ℕ) (words : ℕ → ℕ) : PfDev :=
  { d with ctxt := Function.update d.ctxt sel (Function.update (d.ctxt sel) (hwQid qid) words) }

/-- `hw_indirect_ctext_prog` (the words an RD command returns are read by `ctxtWords`).  Success is
1, as `hw_monitor_reg` returns it. -/
def hwIndirectCtextProg (d : PfDev) (qid : ℕ) (cmd : CtxtCmd) (sel : CtxtSel) (verify : Bool) :
    PfDev × ℤ :=
  let ans := d.cmdAns d.cmds
  let d := { d with cmds := d.cmds + 1 }
  match cmd, ans with
  | _, .busy => (d, ebusy)
  | .clr, _ => (d.setCtxt sel qid (fun _ => 0), 1)
  | .inv, _ => (d.setCtxt sel qid (fun _ => 0), 1)
  | .rd, _ => (d, 1)
  | .wr data, .ok => (d.setCtxt sel qid (fun i => data.getD i 0), 1)
  | .wr data, _ => (d.setCtxt sel qid (fun i => data.getD i 0), if verify then ebusy else 1)

/-- Commands for one queue, up to the first that fails. -/
def ctextProgs (qid : ℕ) : List (CtxtCmd × CtxtSel × Bool) → PfDev → PfDev × ℤ
  | [], d => (d, 0)
  | (cmd, sel, verify) :: cmds, d =>
      let (d, rv) := hwIndirectCtextProg d qid cmd sel verify
      if rv < 0 then (d, rv) else ctextProgs qid cmds d

/-- `qdma_descq_context_clear`. -/
def qdmaDescqContextClearHw (d : PfDev) (qid : ℕ) (st c2h clr : Bool) : PfDev × ℤ :=
  ctextProgs qid
    ([(if clr then .clr else .inv, if c2h then .swC2h else .swH2c, false),
      (.clr, if c2h then .hwC2h else .hwH2c, false),
      (.clr, if c2h then .crC2h else .crH2c, false)]
      ++ if st && c2h then [(.clr, .pftch, false), (.clr, .wrb, false)] else []) d

/-- `qdma_descq_context_program`. -/
def qdmaDescqContextProgram (d : PfDev) (qid : ℕ) (st c2h : Bool) (c : HwDescqContext) :
    PfDev × ℤ :=
  let (d, rv) := qdmaDescqContextClearHw d qid st c2h true
  if rv < 0 then (d, rv)
  else
    ctextProgs qid
      ([(.wr c.sw, if c2h then .swC2h else .swH2c, true), (.wr c.qid2vec, .qid2vec, true)]
        ++ if st && c2h then [(.wr c.prefetch, .pftch, true), (.wr c.wrb, .wrb, true)] else []) d

/-- The words a read of a context returns. -/
def PfDev.ctxtWords (d : PfDev) (sel : CtxtSel) (qid cnt : ℕ) : List ℕ :=
  (List.range cnt).map (d.ctxt sel (hwQid qid))

/-- Reading contexts one after another, up to the first command that fails. -/
def ctextReads (qid : ℕ) : List (CtxtSel × (HwDescqContext → PfDev → HwDescqContext)) →
    HwDescqContext → PfDev → PfDev × HwDescqContext × ℤ
  | [], c, d => (d, c, 0)
  | (sel, store) :: reads, c, d =>
      let (d, rv) := hwIndirectCtextProg d qid .rd sel false
      if rv < 0 then (d, c, rv) else ctextReads qid reads (store c d) d

/-- `qdma_descq_context_read`. -/
def qdmaDescqContextRead (d : PfDev) (qid : ℕ) (st c2h : Bool) : PfDev × HwDescqContext × ℤ :=
  let sw := if c2h then CtxtSel.swC2h else .swH2c
  let hw := if c2h then CtxtSel.hwC2h else .hwH2c
  let cr := if c2h then CtxtSel.crC2h else .crH2c
  ctextReads qid
    ([(sw, fun c d => { c with sw := d.ctxtWords sw qid 4 }),
      (hw, fun c d => { c with hw := d.ctxtWords hw qid 2 }),
      (cr, fun c d => { c with cr := d.ctxtWords cr qid 1 }),
      (.qid2vec, fun c d => { c with qid2vec := d.ctxtWords .qid2vec qid 1 })]
      ++ if st && c2h then
        [(.wrb, fun c d => { c with wrb := d.ctxtWords .wrb qid 4 }),
          (.pftch, fun c d => { c with prefetch := d.ctxtWords .pftch qid 2 })]
      else []) {} d

/-! ## The handler -/

/-- The table a CSR message asks for. -/
def PfDev.csrTable (d : PfDev) : ℕ → Option (List ℕ)
  | 1 => some d.ringSz
  | 2 => some d.bufSz
  | 3 => some d.timerCnt
  | 4 => some d.cntTh
  | _ => none

/-- The `MBOX_OP_QCTXT_WRT` case of the handler: the context is cleared first. -/
def pfQctxtWrt (d : PfDev) (q : MboxQctxt) : PfDev × ℤ :=
  let (d, rv) := qdmaDescqContextClearHw d q.qid q.st q.c2h true
  if rv < 0 then (d, rv) else qdmaDescqContextProgram d q.qid q.st q.c2h q.context

/-- The `switch` of the PF's `qdma_mbox_proc`: the device, the message as changed in place,
`rv`, and the value assigned to `status`, if any. -/
def pfProcOp (d : PfDev) (m : MboxMsg) : PfDev × MboxMsg × ℤ × Option ℤ :=
  match m.op with
  | .hello => ({ d with vfInfo := xdevSriovVfOnline d.vfInfo m.src }, m, 0, none)
  | .bye =>
      let d := d.hwSetFmap ⟨m.src, 0, 0⟩
      ({ d with vfInfo := xdevSriovVfOffline d.vfInfo m.src }, m, 0, none)
  | .fmap =>
      let qbase := vfQbase d.qsetsBase d.qsetsMax m.src m.fmap.qbase
      let d := d.hwSetFmap ⟨m.src, qbase, m.fmap.qmax⟩
      ({ d with vfInfo := xdevSriovVfFmap d.vfInfo m.src qbase m.fmap.qmax },
        { m with fmap := { m.fmap with qbase := qbase } }, 0, none)
  | .csr =>
      match d.csrTable m.csr.type with
      | some v => (d, { m with csr := { m.csr with v := v, wbAcc := d.wbAcc } }, 0, none)
      | none => (d, m, 0, some einval)
  | .intrCtxt => (d, m, einval, none)
  | .qctxtClr =>
      let (d, rv) := qdmaDescqContextClearHw d m.qctxt.qid m.qctxt.st m.qctxt.c2h false
      (d, m, rv, none)
  | .qctxtRd =>
      let (d, c, rv) := qdmaDescqContextRead d m.qctxt.qid m.qctxt.st m.qctxt.c2h
      (d, { m with qctxt := { m.qctxt with context := c } }, rv, none)
  | .qctxtWrt =>
      let (d, rv) := pfQctxtWrt d m.qctxt
      (d, m, rv, none)
  | _ => (d, m, 0, some (-mboxStatusEinval))

/-- `if (rv < 0 && !status) status = -MBOX_STATUS_ERR;`. -/
def statusOf (rv status : ℤ) : ℤ := if rv < 0 ∧ status = 0 then -mboxStatusErr else status

/-- The answer to a message that waits. -/
def MboxMsg.respond (m : MboxMsg) (funcId : ℕ) (status : ℤ) : MboxMsg :=
  { m with sent := false, dst := m.src, src := funcId, ack := true, status := status }

/-- `xlnx_dma_device_flag_check(xdev, XDEV_FLAG_OFFLINE)`. -/
def PfDev.checkOffline (d : PfDev) : PfDev × Bool :=
  ({ d with checks := d.checks + 1 }, d.offline d.checks)

/-- `mbox_send`. -/
def PfDev.mboxSend (d : PfDev) : PfDev × Bool :=
  ({ d with sends := d.sends + 1 }, d.sendOk d.sends)

/-- The body of the loop of the PF's `qdma_mbox_proc`, `status` being its variable: the
device, `status`, the answer if one is written, and whether the loop goes on. -/
def pfProcOne (d : PfDev) (status : ℤ) (m : MboxMsg) : PfDev × ℤ × Option MboxMsg × Bool :=
  if m.ack then (d, status, none, true)
  else
    let (d, m, rv, set) := pfProcOp d m
    let status := set.getD status
    if m.wait then
      let status := statusOf rv status
      let resp := m.respond d.funcId status
      let (d, ok) := d.mboxSend
      if !ok then (d, status, none, false)
      else
        let (d, off) := d.checkOffline
        (d, status, some resp, !off)
    else
      let (d, off) := d.checkOffline
      (d, status, none, !off)

/-- The loop of the PF's `qdma_mbox_proc` over the messages in its mailbox: the device
afterwards and, for each message it takes, the device as it was, the message and the
answer. -/
def pfProcLoop : List MboxMsg → PfDev → ℤ → PfDev × List (PfDev × MboxMsg × Option MboxMsg)
  | [], d, _ => (d, [])
  | m :: ms, d, status =>
      let (d', status, resp, more) := pfProcOne d status m
      if more then
        let (d'', log) := pfProcLoop ms d' status
        (d'', (d, m, resp) :: log)
      else (d', [(d, m, resp)])

/-- `qdma_mbox_proc` of a PF. -/
def pfMboxProc (ms : List MboxMsg) (d : PfDev) : PfDev × List (PfDev × MboxMsg × Option MboxMsg) :=
  pfProcLoop ms d mboxStatusGood

end Qdma
