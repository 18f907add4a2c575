/-
# The VF side of the mailbox

`mbox_proc_rcv`, with which a VF takes messages, and the operations a VF asks its PF for:
`device_set_qrange`, `qdma_csr_msg` and the three of `qdma_context.c`.  Each builds a request
(`VfOp.request`), sends it and takes the answer (`qdma_mbox_send_msg`, here in its two
halves `mboxSendReq` and `mboxRecvResp`), and once the mailbox lock is released reads what it
needs from `m_req` (`VfOp.use`).
-/
import Qdma.Mbox

namespace Qdma

/-! ## Taking messages -/

/-- A VF: its function ids, the two message buffers, its queue base, and the answers it will
get from its outgoing mailbox and from the offline flag. -/
structure VfDev where
  funcId : ℕ := 0
  funcIdParent : ℕ := 0
  mReq : MboxMsg := {}
  qbase : ℕ := 0
  sends : ℕ := 0
  sendOk : ℕ → Bool := fun _ => true
  checks : ℕ := 0
  offline : ℕ → Bool := fun _ => false

/-- `mbox_send`. -/
def VfDev.mboxSend (d : VfDev) : VfDev × Bool :=
  ({ d with sends := d.sends + 1 }, d.sendOk d.sends)

/-- `xlnx_dma_device_flag_check(xdev, XDEV_FLAG_OFFLINE)`. -/
def VfDev.checkOffline (d : VfDev) : VfDev × Bool :=
  ({ d with checks := d.checks + 1 }, d.offline d.checks)

/-- An acknowledgement: the function ids are filled in, and one that was waited for is kept
in `m_req`. -/
def VfDev.takeAck (d : VfDev) (m : MboxMsg) : VfDev :=
  let d := if d.funcId = 0 then { d with funcId := m.dst, funcIdParent := m.src } else d
  if m.wait then { d with mReq := m } else d

/-- The `switch` of `mbox_proc_rcv`: the value assigned to `status`, if any. -/
def vfProcOp (m : MboxMsg) : Option ℤ :=
  match m.op with
  | .reset => none
  | _ => some (-mboxStatusEinval)

/-- The body of the loop of `mbox_proc_rcv`: the VF, `status`, the answer if one is written,
`rv`, and whether the loop goes on as far as the message is concerned. -/
def vfProcOne (d : VfDev) (status : ℤ) (m : MboxMsg) :
    VfDev × ℤ × Option MboxMsg × ℤ × Bool :=
  if m.ack then (d.takeAck m, status, none, 0, true)
  else
    let status := (vfProcOp m).getD status
    if m.wait then
      let resp := m.respond d.funcId status
      let (d, ok) := d.mboxSend
      if !ok then (d, status, none, eagain, false)
      else
        let (d, off) := d.checkOffline
        (d, status, some resp, 0, !off)
    else
      let (d, off) := d.checkOffline
      (d, status, none, 0, !off)

/-- The loop of `mbox_proc_rcv` with budget 0: the VF afterwards and, for each message it
takes, the VF as it was, the message and the answer. -/
def vfProcLoop : List MboxMsg → VfDev → ℤ → VfDev × List (VfDev × MboxMsg × Option MboxMsg)
  | [], d, _ => (d, [])
  | m :: ms, d, status =>
      let (d', status, resp, _, more) := vfProcOne d status m
      if more then
        let (d'', log) := vfProcLoop ms d' status
        (d'', (d, m, resp) :: log)
      else (d', [(d, m, resp)])

/-- `qdma_mbox_proc` of a VF. -/
def vfMboxProc (ms : List MboxMsg) (d : VfDev) : VfDev × List (VfDev × MboxMsg × Option MboxMsg) :=
  vfProcLoop ms d mboxStatusGood

/-! ## Requests -/

/-- What a VF asks its PF for. -/
inductive VfOp where
  /-- `device_set_qrange` -/
  | setQrange (qmax : ℕ)
  /-- `qdma_csr_msg` -/
  | csrMsg (type : ℕ)
  /-- `qdma_descq_context_clear` -/
  | ctxtClear (qid : ℕ) (st c2h : Bool)
  /-- `qdma_descq_context_read` -/
  | ctxtRead (qid : ℕ) (st c2h : Bool)
  /-- `qdma_descq_context_setup` -/
  | ctxtSetup (qid : ℕ) (st c2h : Bool) (context : HwDescqContext)
  deriving DecidableEq

/-- The message an operation sends. -/
def VfOp.request (d : VfDev) : VfOp → MboxMsg
  | .setQrange qmax => { op := .fmap, fmap := { qbase := d.qbase, qmax := qmax } }
  | .csrMsg type => { op := .csr, csr := { type := type } }
  | .ctxtClear qid st c2h =>
      { op := .qctxtClr, src := d.funcId, dst := d.funcIdParent
        qctxt := { qid := qid, st := st, c2h := c2h } }
  | .ctxtRead qid st c2h =>
      { op := .qctxtRd, src := d.funcId, dst := d.funcIdParent
        qctxt := { qid := qid, st := st, c2h := c2h } }
  | .ctxtSetup qid st c2h context =>
      { op := .qctxtWrt, src := d.funcId, dst := d.funcIdParent
        qctxt := { qid := qid, st := st, c2h := c2h, context := context } }

/-- `qdma_mbox_send_msg` with `wait_resp`, up to its wait: the message goes out and `m_req`
is cleared, or the call fails. -/
def mboxSendReq (d : VfDev) (m : MboxMsg) : VfDev × Option MboxMsg :=
  let m := { m with ack := false, wait := true, sent := false }
  let (d, ok) := d.mboxSend
  if ok then ({ d with mReq := {} }, some m) else (d, none)

/-- The test of the acknowledgement in `qdma_mbox_send_msg`. -/
def sendMsgRv (d : VfDev) (m : MboxMsg) : ℤ :=
  if d.mReq.op = m.op ∧ d.mReq.ack then d.mReq.status else etime

/-- The rest of `qdma_mbox_send_msg`, `mbox_proc_rcv` having a budget of one message; `none`
is no message within the second it waits.  `rv` is the return value. -/
def mboxRecvResp (d : VfDev) (m : MboxMsg) : Option MboxMsg → VfDev × ℤ
  | none => (d, 0)
  | some r =>
      let (d, _, _, rv, _) := vfProcOne d mboxStatusGood r
      if rv < 0 then (d, rv) else (d, sendMsgRv d m)

/-! ## What an operation does with the answer -/

/-- What an operation takes over when it succeeds. -/
inductive VfUsed where
  | qrange (funcId funcIdParent qbase : ℕ)
  | csr (val : List ℕ) (wbAcc : ℕ)
  | context (c : HwDescqContext)
  | status
  deriving DecidableEq

/-- The end of an operation whose `qdma_mbox_send_msg` returned no error; `m` is the message
it sent.  The VF, its return value and what it uses. -/
def VfOp.use (d : VfDev) (m : MboxMsg) : VfOp → VfDev × ℤ × Option VfUsed
  | .setQrange _ =>
      ({ d with
          funcId := d.mReq.dst, funcIdParent := d.mReq.src
          qbase := u16 d.mReq.fmap.qbase },
        0, some (.qrange d.mReq.dst d.mReq.src (u16 d.mReq.fmap.qbase)))
  | .csrMsg _ =>
      if d.mReq.status ≠ 0 then (d, d.mReq.status, none)
      else (d, 0, some (.csr d.mReq.csr.v d.mReq.csr.wbAcc))
  | .ctxtClear _ _ _ =>
      if d.mReq.ack then (d, d.mReq.status, if d.mReq.status = 0 then some .status else none)
      else (d, einval, none)
  | .ctxtRead _ _ _ =>
      if d.mReq.ack then
        if d.mReq.status ≠ 0 then (d, d.mReq.status, none)
        -- the context copied out is that of the message sent
        else (d, 0, some (.context m.qctxt.context))
      else (d, einval, none)
  | .ctxtSetup _ _ _ _ =>
      if d.mReq.ack then (d, d.mReq.status, if d.mReq.status = 0 then some .status else none)
      else (d, einval, none)

/-- What an operation is meant to take over from the reply `r`. -/
def VfOp.expected (r : MboxMsg) : VfOp → VfUsed
  | .setQrange _ => .qrange r.dst r.src (u16 r.fmap.qbase)
  | .csrMsg _ => .csr r.csr.v r.csr.wbAcc
  | .ctxtRead _ _ _ => .context r.qctxt.context
  | _ => .status

end Qdma
