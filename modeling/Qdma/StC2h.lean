/-
# The receive side of ST C2H queues

`qdma_st_c2h.c` as the code computes it.  Completion entries are parsed and turn posted
buffers into unread ones (`rcv_pkt`), reads copy unread buffers into the scatter-gather
list of a request (`descq_st_c2h_read`), and buffers read to their end are posted again
(`qdma_flq_refill`).

The entry `fsg` of a read is always the free-list entry `pidx`, both rings having the
same size, so it is not kept apart.
-/
import Qdma.H2c

namespace Qdma

/-! ## Access to the free list -/

/-- The state bits of the buffer at `i` replaced. -/
def Flq.setInfo (q : Flq) (i : ℕ) (s : SdescInfo) : Flq :=
  { q with sdescInfo := Function.update q.sdescInfo i s }

/-- The free list replaced. -/
def Descq.setFlq (d : Descq) (q : Flq) : Descq := { d with flq := q }

/-- `next` of the two arrays of the free list. -/
def Flq.next (q : Flq) (i : ℕ) : ℕ := if i + 1 = q.size then 0 else i + 1

/-! ## Posting buffers again -/

/-- `if (rv == -ENOMEM) flq->alloc_fail++; else flq->mapping_err++;`. -/
def Flq.countFailure (q : Flq) (rv : ℤ) : Flq :=
  if rv = enomem then { q with allocFail := q.allocFail + 1 }
  else { q with mappingErr := q.mappingErr + 1 }

/-- `sdesc->len = PAGE_SIZE << order; sdesc->offset = 0;`. -/
def Flq.recycle (q : Flq) (i : ℕ) : Flq :=
  q.setSdesc i { q.sdesc i with len := q.fullLen, offset := 0 }

/-- `sinfo->fbits = 0; descq->avail++;`. -/
def Descq.refilled (d : Descq) (i : ℕ) : Descq :=
  { d with
    flq := d.flq.setInfo i { d.flq.sdescInfo i with valid := false, sop := false, eop := false }
    avail := d.avail + 1 }

/-- `qdma_flq_refill`, for `count` buffers from `idx` on; `fill` answers the allocations
made when the buffers are not recycled. -/
def qdmaFlqRefill (fill : ℕ → FillOutcome) (recycle : Bool) : ℕ → ℕ → Descq → Descq
  | 0, _, d => d
  | count + 1, idx, d =>
      let idx := if idx = d.flq.size then 0 else idx
      if recycle then
        qdmaFlqRefill fill recycle count (idx + 1)
          ((d.setFlq (d.flq.recycle idx)).refilled idx)
      else
        let (d, rv) := flqFillOne (flqUnmapOne d idx) idx (fill idx)
        if rv < 0 then d.setFlq (d.flq.countFailure rv)
        else qdmaFlqRefill fill recycle count (idx + 1) (d.refilled idx)

/-! ## Reading -/

/-- `len` bytes of a page from `off` on. -/
def pageBytes (page : ℕ → UInt8) (off len : ℕ) : List UInt8 :=
  (List.range len).map (fun k => page (off + k))

/-- The queue and the locals of `descq_st_c2h_read`; `tsg` are the scatter-gather entries
from `j` on. -/
structure Rd where
  d : Descq
  pidx : ℕ
  tsg : List SwSg
  tsgoff : ℕ
  j : ℕ
  i : ℕ := 0
  foff : ℕ := 0
  copied : ℕ := 0

/-- One `memcpy` of `copy` bytes to the entry `dst`. -/
def Rd.copyOf (r : Rd) (page : ℕ → UInt8) (dst : SwSg) (copy : ℕ) : Copy :=
  { pg := dst.pg, offset := dst.offset + r.tsgoff, bytes := pageBytes page r.foff copy }

/-- A `memcpy` and the counters after it. -/
def Rd.memcpy (r : Rd) (page : ℕ → UInt8) (dst : SwSg) (copy : ℕ) : Rd :=
  { r with
    d := { r.d with copied := r.d.copied ++ [r.copyOf page dst copy] }
    foff := r.foff + copy
    tsgoff := r.tsgoff + copy
    copied := r.copied + copy }

/-- `tsg = tsg->next; tsgoff = 0; j++;`. -/
def Rd.nextEntry (r : Rd) (rest : List SwSg) : Rd :=
  { r with tsg := rest, tsgoff := 0, j := r.j + 1 }

/-- `while (flen && tsg)`.  A copy that stops short of the end of its entry has used up
`flen`. -/
def copyOut (page : ℕ → UInt8) : List SwSg → ℕ → Rd → Rd
  | [], _, r => r
  | tsg :: rest, flen, r =>
      if flen = 0 then r
      else
        let copy := min flen (tsg.len - r.tsgoff)
        let r := r.memcpy page tsg copy
        if r.tsgoff = tsg.len then copyOut page rest (flen - copy) (r.nextEntry rest) else r

/-- `if (foff == fsg->len) { .. }`: the buffer is read to its end. -/
def Rd.nextBuf (r : Rd) : Rd :=
  let sinfo := r.d.flq.sdescInfo r.pidx
  { r with
    d := if sinfo.eop then { r.d with cidxWrbPend := sinfo.cidx } else r.d
    pidx := ringIdxIncr r.pidx 1 r.d.conf.rngsz
    i := r.i + 1
    foff := 0 }

/-- `while ((i < fsgcnt) && tsg)`, with `fsgcnt - i` buffers to go.  A buffer left before
its end means that the scatter-gather list is used up. -/
def readLoop : ℕ → Rd → Rd
  | 0, r => r
  | n + 1, r =>
      if r.tsg.isEmpty then r
      else
        let fsg := r.d.flq.sdesc r.pidx
        let r := copyOut fsg.page r.tsg fsg.len { r with foff := 0 }
        if r.foff = fsg.len then readLoop n r.nextBuf else r

/-- `if (foff) { fsg->offset += foff; fsg->len -= foff; }`. -/
def Flq.leavePartway (q : Flq) (i foff : ℕ) : Flq :=
  if foff ≠ 0 then
    q.setSdesc i { q.sdesc i with
      offset := (q.sdesc i).offset + foff, len := (q.sdesc i).len - foff }
  else q

/-- `if (refill && i)`: the buffers read to their end are posted again. -/
def readRefill (r : Rd) (refill : Bool) : Descq :=
  if refill && r.i ≠ 0 then
    qdmaFlqRefill (fun _ => .noMem) true r.i r.d.flq.pidxPend r.d
  else r.d

/-- `if (update_pidx)`: the doorbells of a read. -/
def readBells (d : Descq) (updatePidx : Bool) : Descq :=
  if updatePidx then
    descqWrbCidxUpdate (descqC2hPidxUpdate d (ringIdxDecr d.flq.pidxPend 1 d.flq.size))
      d.cidxWrbPend
  else d

/-- The end of `descq_st_c2h_read`. -/
def readEnd (r : Rd) (updatePidx refill : Bool) : Descq :=
  let d := readRefill r refill
  let d := d.setFlq { d.flq with pidxPend := ringIdxIncr d.flq.pidxPend r.i d.flq.size }
  let d := d.setFlq (d.flq.leavePartway r.pidx r.foff)
  let d := readBells d updatePidx
  d.setFlq { d.flq with pktDlen := u32Sub d.flq.pktDlen r.copied }

/-- `descq_st_c2h_read`.  It returns the bytes copied as an `int`; that one read copies 2^31 bytes
is left out. -/
def descqStC2hRead (d : Descq) (cb : SgtReqCb) (updatePidx refill : Bool) :
    Descq × SgtReqCb × ℤ :=
  let pidx := d.flq.pidxPend
  let fsgcnt := ringIdxDelta d.pidx pidx d.flq.size
  if fsgcnt = 0 then (d, cb, 0)
  else if cb.sgIdx ≠ 0 ∧ cb.req.sgl.drop cb.sgIdx = [] then (d, cb, einval)
  else
    let r := readLoop fsgcnt
      { d := d, pidx := pidx, tsg := cb.req.sgl.drop cb.sgIdx, tsgoff := cb.sgOffset,
        j := cb.sgIdx }
    (readEnd r updatePidx refill,
      { cb with sgIdx := r.j, sgOffset := r.tsgoff, left := u32Sub cb.left r.copied },
      r.copied)

/-- `qdma_c2h_packets_proc_dflt` over the blocks on `pend_list` when it starts. -/
def packetsProcDflt : List SgtReqCb → Descq → Descq
  | [], d => d
  | cb :: cbs, d =>
      if cb.left = 0 then qdmaSgtReqDone d cb 0
      else
        let (d, cb, rv) := descqStC2hRead d cb false false
        let d := d.setCb cb
        let d := if rv < 0 then qdmaSgtReqDone d cb rv else d
        if cb.left = 0 then packetsProcDflt cbs (qdmaSgtReqDone d cb 0) else d

/-- `qdma_c2h_packets_proc_dflt`. -/
def qdmaC2hPacketsProcDflt (d : Descq) : Descq := packetsProcDflt d.pendList d

/-! ## Completion entries -/

/-- `struct cmpl_info`; `entry` is the first word of the entry it points to. -/
structure CmplInfo where
  format : Bool
  color : Bool
  err : Bool
  descUsed : Bool
  len : ℕ
  pidx : ℕ := 0
  entry : ℕ

/-- `cmpl.pidx = pidx`. -/
def CmplInfo.withPidx (c : CmplInfo) (pidx : ℕ) : CmplInfo := { c with pidx := pidx }

/-- `M_C2H_WB_ENTRY_LENGTH`. -/
def mC2hWbEntryLength : ℕ := 0xFFFF

/-- The fields of a completion entry, by their bit positions. -/
def cmplInfo (wrb : ℕ) : CmplInfo :=
  { format := wrb.testBit 0
    color := wrb.testBit 1
    err := wrb.testBit 2
    descUsed := wrb.testBit 3
    len := if !wrb.testBit 0 && wrb.testBit 3 then (wrb >>> 4) &&& mC2hWbEntryLength else 0
    entry := wrb }

/-- `wrb_next`. -/
def wrbNext (d : Descq) : Descq :=
  if d.cidxWrb + 1 = d.conf.rngszWrb then
    { d with cidxWrb := 0, color := !d.color, descWrbCur := 0 }
  else { d with cidxWrb := d.cidxWrb + 1, descWrbCur := d.descWrbCur + d.wbEntryLen }

/-- `parse_cmpl_entry`. -/
def parseCmplEntry (d : Descq) : Descq × CmplInfo × ℤ :=
  let cmpl := cmplInfo (d.descWrb.mem d.descWrbCur)
  if cmpl.err || cmpl.format || (!cmpl.descUsed && !d.conf.cmplUddEn) then
    ({ d with err := true }, cmpl, einval)
  else (d, cmpl, 0)

/-- `sinfo->f.valid = 1; sinfo->cidx = cidx_next;`, with the warning before it. -/
def Descq.markValid (d : Descq) (i cidxNext : ℕ) : Descq :=
  let sinfo := d.flq.sdescInfo i
  { d with
    warned := d.warned || sinfo.valid
    flq := d.flq.setInfo i { sinfo with valid := true, cidx := cidxNext } }

/-- The loop of `rcv_pkt` over the `fl_nr` buffers of a packet. -/
def markLoop (cidxNext : ℕ) : ℕ → ℕ → Descq → Descq
  | 0, _, d => d
  | n + 1, i, d => markLoop cidxNext n (d.flq.next i) (d.markValid i cidxNext)

/-- `flq->sdesc_info[i].f.sop = 1`. -/
def Flq.setSop (q : Flq) (i : ℕ) : Flq := q.setInfo i { q.sdescInfo i with sop := true }

/-- `flq->sdesc_info[i].f.eop = 1`. -/
def Flq.setEop (q : Flq) (i : ℕ) : Flq := q.setInfo i { q.sdescInfo i with eop := true }

/-- The number of buffers of a packet; zero length still uses one. -/
def flNr (pgShift len : ℕ) : ℕ :=
  if len ≠ 0 then u32 (len + u32Sub (1 <<< pgShift) 1) >>> pgShift else 1

/-- The length written to the last buffer of a packet; a multiple of the buffer size
leaves it alone. -/
def Flq.setLastLen (q : Flq) (last len : ℕ) : Flq :=
  if len ≠ 0 then
    let lastLen := len &&& u32Sub (1 <<< q.pgShift) 1
    if lastLen ≠ 0 then q.setSdesc last { q.sdesc last with len := lastLen } else q
  else q.setSdesc last { q.sdesc last with len := 0 }

/-- The default branch of `rcv_pkt`: the packet is kept until it is read. -/
def rcvPktKeep (d : Descq) (pidx last nr len : ℕ) : Descq :=
  let d := markLoop (ringIdxIncr d.cidxWrb 1 d.conf.rngszWrb) nr pidx d
  let q := (d.flq.setSop pidx).setEop last
  d.setFlq { q with
    pktDlen := u32 (q.pktDlen + len)
    uddCnt := if d.conf.cmplUddEn then u32 (q.uddCnt + 1) else q.uddCnt }

/-- `rcv_pkt`. -/
def rcvPkt (d : Descq) (cmpl : CmplInfo) (len : ℕ) : Descq × CmplInfo × ℤ :=
  let nr := flNr d.flq.pgShift len
  let last := ringIdxIncr cmpl.pidx (u32Sub nr 1) d.conf.rngsz
  let d := { d with avail := u32Sub d.avail nr, flq := d.flq.setLastLen last len }
  let cmplNext := cmpl.withPidx (ringIdxIncr last 1 d.conf.rngsz)
  match d.conf.fpDescqC2hPacket with
  | some fp =>
      let rv := fp { len := len, sgcnt := nr, slot := cmpl.pidx,
                     udd := if d.conf.cmplUddEn then some cmpl.entry else none }
      if rv < 0 then (d, cmpl, rv)
      else ({ d with cidxWrbPend := d.cidxWrb, flq := { d.flq with pidxPend := last } },
        cmplNext, 0)
  | none => (rcvPktKeep d cmpl.pidx last nr len, cmplNext, 0)

/-- `rcv_udd_only`. -/
def rcvUddOnly (d : Descq) (cmpl : CmplInfo) : Descq × ℤ :=
  match d.conf.fpDescqC2hPacket with
  | some fp => (d, fp { len := 0, sgcnt := 0, slot := 0, udd := some cmpl.entry })
  | none => (d.setFlq { d.flq with uddCnt := u32 (d.flq.uddCnt + 1) }, 0)

/-! ## Completion servicing -/

/-- The queue and the locals of `descq_process_completion_st_c2h`; `ret` is set once the
function returns from within its loop. -/
structure Proc where
  d : Descq
  pidx : ℕ
  procCnt : ℕ := 0
  ret : Option ℤ := none

/-- One entry of the completion ring that is not in error: `rcv_pkt` or `rcv_udd_only`. -/
def rcvEntry (d : Descq) (cmpl : CmplInfo) : Descq × CmplInfo × ℤ :=
  if cmpl.descUsed then rcvPkt d cmpl cmpl.len
  else if d.conf.cmplUddEn then
    let (d, rv) := rcvUddOnly d cmpl
    (d, cmpl, rv)
  else (d, cmpl, 0)

/-- `while (likely(proc_cnt < budget))`, with `budget - proc_cnt` entries to go. -/
def procLoop : ℕ → Proc → Proc
  | 0, p => p
  | n + 1, p =>
      let (d, cmpl, rv) := parseCmplEntry p.d
      if rv < 0 then { p with d := d, ret := some rv }
      else if cmpl.color ≠ d.color then { p with d := d }
      else
        let (d, cmpl, rv) := rcvEntry d (cmpl.withPidx p.pidx)
        if rv < 0 then { p with d := d }
        else procLoop n { d := wrbNext d, pidx := cmpl.pidx, procCnt := p.procCnt + 1 }

/-- `if (flq->pidx_pend != pidx_pend) { .. }`: the buffers read are posted again. -/
def procRefill (d : Descq) (pidxPend : ℕ) (fill : ℕ → FillOutcome) : Descq :=
  if d.flq.pidxPend ≠ pidxPend then
    let cnt := ringIdxDelta d.flq.pidxPend pidxPend d.flq.size
    let d := qdmaFlqRefill fill d.conf.fpDescqC2hPacket.isNone cnt pidxPend d
    descqC2hPidxUpdate d (ringIdxDecr d.flq.pidxPend 1 d.flq.size)
  else d

/-- `if (proc_cnt) { .. }`: the new packets are read, the buffers read are posted again
and the doorbells rung. -/
def procEnd (p : Proc) (pidxWrb pidxPend : ℕ) (fill : ℕ → FillOutcome) : Descq :=
  if p.procCnt ≠ 0 then
    let d := { p.d with pidxWrb := pidxWrb, pidx := p.pidx }
    let d := if d.conf.fpDescqC2hPacket.isNone then qdmaC2hPacketsProcDflt d else d
    let d := procRefill d pidxPend fill
    descqWrbCidxUpdate d d.cidxWrbPend
  else p.d

/-- The entries one call goes through: all that are new, or as many as the budget says. -/
def procBudget (budget : ℤ) (pend : ℕ) : ℕ :=
  if budget = 0 ∨ budget > pend then pend else budget.toNat

/-- `descq_process_completion_st_c2h`; `fill` answers the allocations of its refill. -/
def descqProcessCompletionStC2h (d : Descq) (budget : ℤ) (fill : ℕ → FillOutcome) :
    Descq × ℤ :=
  if d.err then (d, 0)
  else if d.conf.fpDescqC2hPacket.isNone && d.pendList.isEmpty && d.workList.isEmpty then
    (d, 0)
  else
    let pidxWrb := d.descWrb.wbPidx
    let pend := ringIdxDelta pidxWrb d.cidxWrb d.conf.rngszWrb
    if pend = 0 then (d, 0)
    else
      let p := procLoop (procBudget budget pend) { d := d, pidx := d.pidx }
      match p.ret with
      | some rv => (p.d, rv)
      | none => (procEnd p pidxWrb d.flq.pidxPend fill, 0)

/-! ## Submitting and reading -/

/-- The control block of a request just submitted to an ST C2H queue. -/
def Request.newC2hCb (req : Request) (id : ℕ) : SgtReqCb :=
  { id := id, req := req, left := req.count }

/-- The first locked section of `qdma_request_submit_st_c2h`: what is there is read. -/
def submitStC2hRead (d : Descq) (id : ℕ) (req : Request) : Descq × SgtReqCb :=
  let (d, cb, _) := descqStC2hRead d (req.newC2hCb id) true true
  (d, cb)

/-- Its second locked section: a request not yet filled joins `pend_list`.  `none` means
queued, `some rv` that the call returns `rv` at once. -/
def submitStC2hPend (d : Descq) (cb : SgtReqCb) : Descq × Option ℤ :=
  if d.online then
    (descqWrbCidxUpdate { d with pendList := d.pendList ++ [cb] } d.cidxWrbPend, none)
  else (d, some einval)

/-- `qdma_queue_c2h_peek`: `*udd_cnt`, `*pkt_cnt` and `*data_len`. -/
def qdmaQueueC2hPeek (d : Descq) : ℕ × ℕ × ℕ := (d.flq.uddCnt, d.flq.pktCnt, d.flq.pktDlen)

/-- `qdma_queue_packet_read`: what is there is read, and the call returns. -/
def qdmaQueuePacketRead (d : Descq) (id : ℕ) (req : Request) : Descq × ℤ :=
  if !d.conf.st || !d.conf.c2h then (d, einval)
  else
    let (d, cb, _) := descqStC2hRead d { id := id, req := req } true true
    (d, i32 (u32Sub req.count cb.left))

end Qdma
