/-
# The data path of memory-mapped and ST H2C queues

`qdma_descq.c` and `qdma_thread.c` as the code computes them: a worker pass turns the
requests of `work_list` into descriptors, a writeback turns the device's consumer index
into credits and the credits into completed requests of `pend_list`.

The fill loops are bounded by the free descriptors `desc_max - desc_cnt`, which the
inner loop takes as a structural argument `room`.  The pointer `desc` of the C code is
always the slot `descq->pidx`, so it is not kept apart.
-/
import Qdma.Setup

namespace Qdma

/-! ## Request lists -/

/-- `list_del(&cb->list)`: the block leaves the list it is on. -/
def Descq.listDel (d : Descq) (id : ℕ) : Descq :=
  { d with
    workList := d.workList.filter (fun c => c.id ≠ id)
    pendList := d.pendList.filter (fun c => c.id ≠ id) }

/-- Replace the block with the identity of `cb` in `l`. -/
def updCb (cb : SgtReqCb) (l : List SgtReqCb) : List SgtReqCb :=
  l.map (fun c => if c.id = cb.id then cb else c)

theorem updCb_ids (cb : SgtReqCb) (l : List SgtReqCb) :
    (updCb cb l).map SgtReqCb.id = l.map SgtReqCb.id := by
  unfold updCb
  rw [List.map_map]
  apply List.map_congr_left
  intro c _
  show (if c.id = cb.id then cb else c).id = c.id
  split_ifs with h
  · exact h.symm
  · rfl

/-- A write through the pointer `cb`. -/
def Descq.setCb (d : Descq) (cb : SgtReqCb) : Descq :=
  { d with workList := updCb cb d.workList, pendList := updCb cb d.pendList }

/-- `req_submitted`. -/
def reqSubmitted (d : Descq) (cb : SgtReqCb) : Descq :=
  let d := d.listDel cb.id
  { d with pendList := d.pendList ++ [cb] }

/-- What `qdma_sgt_req_done` writes to the block. -/
def SgtReqCb.finish (cb : SgtReqCb) (error : ℤ) : SgtReqCb :=
  let error := if cb.req.fpDone ∧ cb.offset ≠ cb.req.count then einval else error
  { cb with unmapNeeded := false, status := error, done := true }

/-- `qdma_sgt_req_done`: the pages are unmapped and the waiter or the callback is told. -/
def qdmaSgtReqDone (d : Descq) (cb : SgtReqCb) (error : ℤ) : Descq :=
  let d := d.listDel cb.id
  { d with finished := d.finished ++ [{ cb := cb.finish error, held := d.held }] }

/-! ## Resuming a request -/

/-- The loop of `sgl_find_offset`; `i` is its counter and `len` its running sum. -/
def sglFindOffsetGo (offset : ℕ) : List SwSg → ℕ → ℕ → Option (ℕ × ℕ)
  | [], _, _ => none
  | sg :: sgl, len, i =>
      let len := u32 (len + sg.len)
      if len = offset then some (i + 1, 0)
      else if len > offset then some (i, len - offset)
      else sglFindOffsetGo offset sgl len (i + 1)

/-- `sgl_find_offset`: the entry the offset falls on and `*sg_offset`. -/
def sglFindOffset (sgl : List SwSg) (offset : ℕ) : Option (ℕ × ℕ) :=
  sglFindOffsetGo offset sgl 0 0

/-- The opening of both request functions: the entry to go on with, or `-EINVAL`. -/
def resumeAt (cb : SgtReqCb) : Option (ℕ × ℕ) :=
  if cb.offset ≠ 0 then
    (sglFindOffset cb.req.sgl cb.offset).filter (fun p => p.1 < cb.req.sgcnt)
  else some (0, 0)

/-- `if (sg_offset) { sg_offset = 0; tlen -= sg_offset; addr += sg_offset; }`: the
offset is cleared before it is used. -/
def skipOffset (sgOffset tlen addr : ℕ) : ℕ × ℕ × ℕ :=
  if sgOffset ≠ 0 then
    let sgOffset := 0
    (sgOffset, tlen - sgOffset, addr + sgOffset)
  else (sgOffset, tlen, addr)

@[simp] theorem skipOffset_eq (sgOffset tlen addr : ℕ) :
    skipOffset sgOffset tlen addr = (0, tlen, addr) := by
  unfold skipOffset
  split_ifs with h
  · rfl
  · rw [not_not.mp h]

/-! ## Filling descriptors -/

/-- The descriptor at `pidx` is written and `pidx` moves on, wrapping at `rngsz`. -/
def Descq.putDesc (d : Descq) (desc : Desc) : Descq :=
  { d with
    desc := { d.desc with slot := Function.update d.desc.slot d.pidx desc }
    pidx := if d.pidx + 1 = d.conf.rngsz then 0 else d.pidx + 1 }

/-- The queue and the locals of a fill loop. -/
structure Fill where
  d : Descq
  epAddr : ℕ := 0
  dataCnt : ℕ := 0
  descCnt : ℕ := 0
  descEnd : Option ℕ := none

/-- `S_DESC_F_DV`. -/
def sDescFDv : ℕ := 28

/-- `S_DESC_F_SOP`. -/
def sDescFSop : ℕ := 29

/-- `S_DESC_F_EOP`. -/
def sDescFEop : ℕ := 30

/-- One round of the inner loop of `descq_mm_proc_request`. -/
def mmPut (id : ℕ) (f : Fill) (len addr : ℕ) : Fill :=
  let slot := f.d.desc.slot f.d.pidx
  let mm : MmDesc :=
    if f.d.conf.c2h then
      { srcAddr := f.epAddr, dstAddr := addr, flagLen := len ||| 1 <<< sDescFDv }
    else { dstAddr := f.epAddr, srcAddr := addr, flagLen := len ||| 1 <<< sDescFDv }
  { d := f.d.putDesc { slot with mm := mm, owner := some id }
    epAddr := u64 (f.epAddr + len)
    dataCnt := u32 (f.dataCnt + len)
    descCnt := f.descCnt + 1
    descEnd := some f.d.pidx }

/-- `while (tlen)` of `descq_mm_proc_request`, with `room` free descriptors. -/
def mmFillEntry (id : ℕ) : ℕ → ℕ → ℕ → Fill → Fill
  | 0, _, _, f => f
  | room + 1, tlen, addr, f =>
      if tlen = 0 then f
      else
        let len := min tlen qdmaDescBlenMax
        mmFillEntry id room (tlen - len) (u64 (addr + len)) (mmPut id f len addr)

/-- The scatter-gather loop of `descq_mm_proc_request`. -/
def mmFillSgl (id descMax : ℕ) : List SwSg → ℕ → Fill → Fill
  | [], _, f => f
  | sg :: sgl, sgOffset, f =>
      if f.descCnt < descMax then
        let (sgOffset, tlen, addr) := skipOffset sgOffset sg.len sg.dmaAddr
        mmFillSgl id descMax sgl sgOffset
          (mmFillEntry id (descMax - f.descCnt) tlen addr f)
      else f

/-- `desc->flag_len |= (1 << bit)`. -/
def Descq.mmSetFlag (d : Descq) (i bit : ℕ) : Descq :=
  let s := d.desc.slot i
  let s := { s with mm := { s.mm with flagLen := s.mm.flagLen ||| 1 <<< bit } }
  { d with desc := { d.desc with slot := Function.update d.desc.slot i s } }

/-- `cb->desc_nr += desc_cnt; cb->offset += data_cnt;`. -/
def SgtReqCb.charge (cb : SgtReqCb) (descCnt dataCnt : ℕ) : SgtReqCb :=
  { cb with descNr := u32 (cb.descNr + descCnt), offset := u32 (cb.offset + dataCnt) }

/-- The bookkeeping both request functions end with. -/
def chargeRequest (d : Descq) (cb : SgtReqCb) (descCnt dataCnt : ℕ) : Descq :=
  let d := { d with avail := d.avail - descCnt }
  let cb := cb.charge descCnt dataCnt
  let d := d.setCb cb
  if cb.offset = cb.req.count then reqSubmitted d cb else d

/-- `descq_mm_proc_request`. -/
def descqMmProcRequest (d : Descq) (cb : SgtReqCb) : Descq × ℤ :=
  let descMax := d.avail
  if descMax = 0 then (d, 0)
  else
    match resumeAt cb with
    | none => (d, einval)
    | some (i, sgOffset) =>
        let descStart := d.pidx
        let f := mmFillSgl cb.id descMax (cb.req.sgl.drop i) sgOffset
          { d := d, epAddr := u64 (cb.req.epAddr + cb.offset) }
        match f.descEnd with
        | none => (f.d, eio)
        | some descEnd =>
            let d := (f.d.mmSetFlag descEnd sDescFEop).mmSetFlag descStart sDescFSop
            let d := chargeRequest d cb f.descCnt f.dataCnt
            let d :=
              if d.conf.c2h then descqC2hPidxUpdate d d.pidx
              else descqH2cPidxUpdate d d.pidx
            (d, 0)

/-- `S_H2C_DESC_F_SOP`, used as a mask. -/
def sH2cDescFSop : ℕ := 1

/-- `S_H2C_DESC_F_EOP`, used as a mask. -/
def sH2cDescFEop : ℕ := 2

/-- `S_H2C_DESC_F_ZERO_CDH`, used as a mask. -/
def sH2cDescFZeroCdh : ℕ := 13

/-- `desc->flags |= mask`. -/
def Descq.h2cSetFlag (d : Descq) (i mask : ℕ) : Descq :=
  let s := d.desc.slot i
  let s := { s with h2c := { s.h2c with flags := s.h2c.flags ||| mask } }
  { d with desc := { d.desc with slot := Function.update d.desc.slot i s } }

/-- One round of the inner loop of `descq_proc_st_h2c_request`, doorbell included; `eop`
is `i == sg_max - 1`. -/
def stPut (id : ℕ) (eop : Bool) (f : Fill) (len addr : ℕ) : Fill :=
  let slot := f.d.desc.slot f.d.pidx
  let h2c : H2cDesc :=
    { srcAddr := addr
      len := len
      pldLen := len
      cdhFlags := slot.h2c.cdhFlags ||| sH2cDescFZeroCdh
      flags := if eop then slot.h2c.flags ||| sH2cDescFEop else slot.h2c.flags }
  let d := f.d.putDesc { slot with h2c := h2c, owner := some id }
  { d := descqH2cPidxUpdate d d.pidx
    dataCnt := u32 (f.dataCnt + len)
    descCnt := f.descCnt + 1 }

/-- `do { } while (tlen)` of `descq_proc_st_h2c_request`, with `room` free descriptors. -/
def stFillEntry (id : ℕ) (eop : Bool) : ℕ → ℕ → ℕ → Fill → Fill
  | 0, _, _, f => f
  | room + 1, tlen, addr, f =>
      let len := min tlen pageSize
      let f := stPut id eop f len addr
      if tlen - len = 0 then f
      else stFillEntry id eop room (tlen - len) (u64 (addr + len)) f

/-- The scatter-gather loop of `descq_proc_st_h2c_request`. -/
def stFillSgl (id descMax : ℕ) : List SwSg → ℕ → Fill → Fill
  | [], _, f => f
  | sg :: sgl, sgOffset, f =>
      if f.descCnt < descMax then
        let (sgOffset, tlen, addr) := skipOffset sgOffset sg.len sg.dmaAddr
        stFillSgl id descMax sgl sgOffset
          (stFillEntry id sgl.isEmpty (descMax - f.descCnt) tlen addr f)
      else f

/-- `descq_proc_st_h2c_request`. -/
def descqProcStH2cRequest (d : Descq) (cb : SgtReqCb) : Descq × ℤ :=
  let descMax := d.avail
  if descMax = 0 then (d, 0)
  else
    match resumeAt cb with
    | none => (d, einval)
    | some (i, sgOffset) =>
        let d := if cb.offset ≠ 0 then d else d.h2cSetFlag d.pidx sH2cDescFSop
        let f := stFillSgl cb.id descMax (cb.req.sgl.drop i) sgOffset { d := d }
        (chargeRequest f.d cb f.descCnt f.dataCnt, 0)

/-! ## Other page sizes

`PAGE_SIZE` is the kernel's.  `descq_proc_st_h2c_request` is the one function of the data path
that depends on it; here it is for pages of `pg` bytes, with the fields `len` and `pld_len` cut
to their 16 bits. -/

/-- One round of the inner loop of `descq_proc_st_h2c_request`. -/
def stPutOf (id : ℕ) (eop : Bool) (f : Fill) (len addr : ℕ) : Fill :=
  let slot := f.d.desc.slot f.d.pidx
  let h2c : H2cDesc :=
    { srcAddr := addr
      len := u16 len
      pldLen := u16 len
      cdhFlags := slot.h2c.cdhFlags ||| sH2cDescFZeroCdh
      flags := if eop then slot.h2c.flags ||| sH2cDescFEop else slot.h2c.flags }
  let d := f.d.putDesc { slot with h2c := h2c, owner := some id }
  { d := descqH2cPidxUpdate d d.pidx
    dataCnt := u32 (f.dataCnt + len)
    descCnt := f.descCnt + 1 }

/-- `do { } while (tlen)` of `descq_proc_st_h2c_request`. -/
def stFillEntryOf (pg id : ℕ) (eop : Bool) : ℕ → ℕ → ℕ → Fill → Fill
  | 0, _, _, f => f
  | room + 1, tlen, addr, f =>
      let len := min tlen pg
      let f := stPutOf id eop f len addr
      if tlen - len = 0 then f
      else stFillEntryOf pg id eop room (tlen - len) (u64 (addr + len)) f

/-- The scatter-gather loop of `descq_proc_st_h2c_request`. -/
def stFillSglOf (pg id descMax : ℕ) : List SwSg → ℕ → Fill → Fill
  | [], _, f => f
  | sg :: sgl, sgOffset, f =>
      if f.descCnt < descMax then
        let (sgOffset, tlen, addr) := skipOffset sgOffset sg.len sg.dmaAddr
        stFillSglOf pg id descMax sgl sgOffset
          (stFillEntryOf pg id sgl.isEmpty (descMax - f.descCnt) tlen addr f)
      else f

/-- `descq_proc_st_h2c_request`. -/
def descqProcStH2cRequestOf (pg : ℕ) (d : Descq) (cb : SgtReqCb) : Descq × ℤ :=
  let descMax := d.avail
  if descMax = 0 then (d, 0)
  else
    match resumeAt cb with
    | none => (d, einval)
    | some (i, sgOffset) =>
        let d := if cb.offset ≠ 0 then d else d.h2cSetFlag d.pidx sH2cDescFSop
        let f := stFillSglOf pg cb.id descMax (cb.req.sgl.drop i) sgOffset { d := d }
        (chargeRequest f.d cb f.descCnt f.dataCnt, 0)

/-- `qdma_descq_proc_sgt_request`. -/
def qdmaDescqProcSgtRequestOf (pg : ℕ) (d : Descq) (cb : SgtReqCb) : Descq × ℤ :=
  if !d.conf.st then descqMmProcRequest d cb
  else if d.conf.st && !d.conf.c2h then descqProcStH2cRequestOf pg d cb
  else (d, -1)

/-- `qdma_descq_proc_sgt_request`. -/
def qdmaDescqProcSgtRequest (d : Descq) (cb : SgtReqCb) : Descq × ℤ :=
  if !d.conf.st then descqMmProcRequest d cb
  else if d.conf.st && !d.conf.c2h then descqProcStH2cRequest d cb
  else (d, -1)

/-! ## The worker pass -/

/-- The loop of `qdma_thread_wrk_proc` over the blocks on `work_list` when it starts. -/
def wrkProcLoop : List SgtReqCb → Descq → Descq
  | [], d => d
  | cb :: cbs, d =>
      let (d, rv) := qdmaDescqProcSgtRequest d cb
      let d := if rv < 0 then qdmaSgtReqDone d cb rv else d
      if d.avail = 0 then d else wrkProcLoop cbs d

/-- `qdma_thread_wrk_proc`. -/
def qdmaThreadWrkProc (d : Descq) : Descq := wrkProcLoop d.workList d

/-- The loop of `qdma_thread_wrk_proc` on a kernel with pages of `pg` bytes. -/
def wrkProcLoopOf (pg : ℕ) : List SgtReqCb → Descq → Descq
  | [], d => d
  | cb :: cbs, d =>
      let (d, rv) := qdmaDescqProcSgtRequestOf pg d cb
      let d := if rv < 0 then qdmaSgtReqDone d cb rv else d
      if d.avail = 0 then d else wrkProcLoopOf pg cbs d

/-- `qdma_thread_wrk_proc`. -/
def qdmaThreadWrkProcOf (pg : ℕ) (d : Descq) : Descq := wrkProcLoopOf pg d.workList d

/-! ## Writeback -/

/-- `descq_wb_credit`: the credits the new consumer index is worth. -/
def descqWbCredit (q : Descq) (cidx : ℕ) : Descq × ℕ :=
  if cidx = q.cidx then (q, 0)
  else
    let n := if cidx < q.cidx then (q.conf.rngsz - q.cidx) + cidx else cidx - q.cidx
    ({ q with cidx := cidx, avail := q.avail + n }, n)

/-- The loop of `req_update_pend` with `credit` left to hand out. -/
def reqUpdatePendLoop : List SgtReqCb → ℕ → Descq → Descq × ℕ
  | [], credit, d => (d, credit)
  | cb :: cbs, credit, d =>
      let (d, credit) :=
        if credit ≥ cb.descNr then (qdmaSgtReqDone d cb 0, credit - cb.descNr)
        else (d.setCb { cb with descNr := cb.descNr - credit }, 0)
      if credit = 0 then (d, credit) else reqUpdatePendLoop cbs credit d

/-- `req_update_pend`. -/
def reqUpdatePend (d : Descq) (credit : ℕ) : Descq :=
  let (d, credit) := reqUpdatePendLoop d.pendList (u32 (credit + d.credit)) d
  { d with credit := credit }

/-- `descq_mm_n_h2c_wb`. -/
def descqMmNH2cWb (d : Descq) : Descq :=
  if d.pidx = d.cidx then d
  else
    let cidxHw := d.desc.wbCidx
    if cidxHw = d.cidx then d
    else
      let (d, cr) := descqWbCredit d cidxHw
      let d := reqUpdatePend d cr
      if d.conf.c2h then descqC2hPidxUpdate d d.pidx else descqH2cPidxUpdate d d.pidx

/-! ## Submitting and waiting -/

/-- The control block of a request just submitted. -/
def Request.newCb (req : Request) (id : ℕ) : SgtReqCb :=
  { id := id, req := req, unmapNeeded := !req.dmaMapped }

/-- `list_add_tail(&cb->list, &descq->work_list)`. -/
def Descq.enqueue (d : Descq) (cb : SgtReqCb) : Descq :=
  { d with workList := d.workList ++ [cb] }

/-- The `work_list` path of `qdma_request_submit` up to the point where the request is
queued; `mapped` is the answer of `sgl_map`.  `none` means queued, `some rv` that the
call returns `rv` at once. -/
def qdmaRequestSubmit (d : Descq) (id : ℕ) (req : Request) (mapped : Bool) :
    Descq × Option ℤ :=
  if req.write = d.conf.c2h then (d, some einval)
  else if !req.dmaMapped && !mapped then (d, some eio)
  else if !d.online then (d, some einval)
  else (d.enqueue (req.newCb id), none)

/-- The control block `id` once it is done. -/
def Descq.doneCb (d : Descq) (id : ℕ) : Option SgtReqCb :=
  (d.finished.find? (fun f => f.cb.id = id)).map (·.cb)

/-- `qdma_request_wait_for_cmpl` once the wait is over, because the request is done or
because the time-out (or a signal) ended it. -/
def qdmaRequestWaitForCmpl (d : Descq) (id : ℕ) : Descq × ℤ :=
  match d.doneCb id with
  | none => (d.listDel id, eio)
  | some cb => (d, if cb.status ≠ 0 then eio else 0)

end Qdma
