/-
# What is reported of a request

A queue of any kind with its callers, seen from their side: what each request asks for, which
requests were accepted, what the calls have returned, and how many bytes were copied for each
read.  `Desk.step` takes the queue through `QSys.step` and writes these things down.

`Truthful` compares the reports with the bytes moved, and `Honest` are the steps after which
they agree.
-/
import Qdma.BufferSafety
import Qdma.CreditFifo
import Qdma.Drain

namespace Qdma

/-! ## Bytes copied for reads -/

/-- The bytes copied from one state to a later one. -/
def copyCount (d d' : Descq) : ℕ := (copyBytes (d'.copied.drop d.copied.length)).length

/-- The bytes that `qdma_c2h_packets_proc_dflt` copies, request by request. -/
def packetsCopies : List SgtReqCb → Descq → List (ℕ × ℕ)
  | [], _ => []
  | cb :: cbs, d =>
      if cb.left = 0 then []
      else
        let before := d
        let (d, cb, rv) := descqStC2hRead d cb false false
        let count := copyCount before d
        let d := d.setCb cb
        let d := if rv < 0 then qdmaSgtReqDone d cb rv else d
        (cb.id, count) ::
          if cb.left = 0 then packetsCopies cbs (qdmaSgtReqDone d cb 0) else []

/-- The bytes that `descq_process_completion_st_c2h` copies, request by request. -/
def processCopies (d : Descq) (budget : ℤ) : List (ℕ × ℕ) :=
  if d.err then []
  else if d.conf.fpDescqC2hPacket.isNone && d.pendList.isEmpty && d.workList.isEmpty then []
  else
    let pend := ringIdxDelta d.descWrb.wbPidx d.cidxWrb d.conf.rngszWrb
    if pend = 0 then []
    else
      let p := procLoop (procBudget budget pend) { d := d, pidx := d.pidx }
      match p.ret with
      | some _ => []
      | none =>
          if p.procCnt ≠ 0 ∧ p.d.conf.fpDescqC2hPacket.isNone = true then
            packetsCopies p.d.pendList { p.d with pidxWrb := d.descWrb.wbPidx, pidx := p.pidx }
          else []

/-- The bytes that `qdma_descq_service_wb` copies, request by request. -/
def serviceCopies (d : Descq) (budget : ℤ) : List (ℕ × ℕ) :=
  if d.isRx then processCopies d budget else []

/-! ## The desk -/

/-- A queue with its callers, what they ask for, the requests accepted, what the calls have
returned (but for the 0 of a call that leaves its request to the callback), and the bytes
copied. -/
structure Desk where
  sys : QSys
  asked : ℕ → Option Request := fun _ => none
  accepted : List ℕ := []
  returned : List (ℕ × ℤ) := []
  copied : List (ℕ × ℕ) := []

/-- What `qdma_request_submit` returns without waiting: an error, or, for a read that finds
all its data, its count. -/
def QSys.submitReturn (s : QSys) (req : Request) (mapped : Bool) : Option ℤ :=
  if s.q.isRx then
    if req.write then some einval
    else if (submitStC2hRead s.q s.nreq req).2.left = 0 then some req.count
    else none
  else (qdmaRequestSubmit s.q s.nreq req mapped).2

/-- What `qdma_request_submit` returns after its wait. -/
def QSys.waitReturn (s : QSys) (id : ℕ) : ℤ :=
  let (_, rv) := qdmaRequestWaitForCmpl s.q id
  if rv < 0 then rv
  else
    match s.q.doneCb id with
    | none => rv
    | some cb => if s.q.isRx then u32Sub cb.req.count cb.left else cb.offset

/-- The call for request `id` returns `rv`. -/
def Desk.answer (x : Desk) (id : ℕ) (rv : ℤ) : Desk :=
  { x with returned := x.returned ++ [(id, rv)] }

/-- Request `id` is accepted. -/
def Desk.accept (x : Desk) (id : ℕ) : Desk := { x with accepted := x.accepted ++ [id] }

/-- A submission is written down.  A call that returns at once accepts its request unless it
returns an error; a read whose caller goes on to `pend_list` is accepted there. -/
def Desk.noteSubmit (x : Desk) (req : Request) (mapped : Bool) : Desk :=
  let id := x.sys.nreq
  let rv := x.sys.submitReturn req mapped
  let rx := x.sys.q.isRx
  let x := { x with
    asked := Function.update x.asked id (some req)
    copied := x.copied ++ [(id, copyCount x.sys.q (x.sys.submit req mapped).q)] }
  match rv with
  | some rv => if 0 ≤ rv then (x.accept id).answer id rv else x.answer id rv
  | none => if rx then x else x.accept id

/-- The second locked section of a read is written down. -/
def Desk.notePend (x : Desk) (cb : SgtReqCb) : Desk :=
  match (submitStC2hPend x.sys.q cb).2 with
  | some rv => x.answer cb.id rv
  | none => x.accept cb.id

/-- What a step adds to the notes. -/
def Desk.note (x : Desk) : QLabel → Desk
  | .submit req mapped => x.noteSubmit req mapped
  | .pend id =>
      match x.sys.parked.find? (fun c => c.id = id) with
      | some cb => x.notePend cb
      | none => x
  | .service budget _ => { x with copied := x.copied ++ serviceCopies x.sys.q budget }
  | .wait id => x.answer id (x.sys.waitReturn id)
  | _ => x

/-- One step. -/
def Desk.step (x : Desk) (l : QLabel) : Desk := { x.note l with sys := x.sys.step l }

/-! ## The property -/

/-- The bytes copied for request `id`. -/
def copiedFor (log : List (ℕ × ℕ)) (id : ℕ) : ℕ := ((log.filter (·.1 = id)).map (·.2)).sum

/-- The bytes of the descriptors of request `id` among `ds`. -/
def descBytes (st : Bool) (ds : List Desc) (id : ℕ) : ℕ :=
  ((ds.filter (·.owner = some id)).map (Desc.len st)).sum

/-- The bytes really transferred for request `id`: those copied to its scatter-gather list, or
those of its descriptors that the device has consumed. -/
def Desk.moved (x : Desk) (id : ℕ) : ℕ :=
  if x.sys.q.isRx then copiedFor x.copied id
  else descBytes x.sys.q.conf.st x.sys.q.consumed id

/-- The answer `rv` to a request for `count` bytes of which `n` were moved: a result gives
their number, and there is one exactly when they are all. -/
structure Reports (rv : ℤ) (n count : ℕ) : Prop where
  bytes : 0 ≤ rv → rv = n
  whole : 0 ≤ rv ↔ n = count

/-- **The reports are truthful**: those of the callbacks, `fp_done(req, offset, status)`, and
those of the calls; and a request with a callback that was accepted waits on the lists of its
queue or has been called back, once. -/
structure Truthful (x : Desk) : Prop where
  callback : ∀ f ∈ x.sys.q.finished, f.cb.req.fpDone = true →
    f.cb.offset = x.moved f.cb.id ∧ (f.cb.status = 0 ↔ x.moved f.cb.id = f.cb.req.count)
  returned : ∀ r ∈ x.returned, ∀ req, x.asked r.1 = some req →
    Reports r.2 (x.moved r.1) req.count
  once : ∀ id ∈ x.accepted, ∀ req, x.asked id = some req → req.fpDone = true →
    x.sys.q.listed id + x.sys.q.completed id = 1

/-! ## The condition -/

/-- The queue as one of its data path without ST C2H. -/
def QSys.toSys (s : QSys) : Sys := { q := s.q, nreq := s.nreq, waiters := s.waiters }

/-- Steps of the data path that the device and the callers may take: a caller stops waiting
only when it sleeps, and the device of a memory-mapped or ST H2C queue reports positions
between the last one and `pidx`. -/
def DeskLegal (x : Desk) : QLabel → Prop
  | .wait id => id ∈ x.sys.waiters
  | .device wbCidx _ _ _ => x.sys.q.isRx = true ∨ Legal x.sys.toSys (.hw wbCidx)
  | l => l.Traffic

/-- The queue takes the request: it is of its direction, and on a queue that is not ST C2H its
pages can be mapped and the queue is online. -/
def QSys.Takes (s : QSys) (req : Request) (mapped : Bool) : Prop :=
  req.write = !s.q.conf.c2h ∧
    (s.q.isRx = true ∨ (req.dmaMapped = true ∨ mapped = true) ∧ s.q.online = true)

/-- The steps whose reports are truthful.  The entries of a request add up to its count; no
read of an ST C2H queue has a callback; a request for no bytes is one that a streaming queue
takes.  On a memory-mapped or ST H2C queue a worker pass does not stop inside an entry, the
two counters do not wrap, and a caller gives its request up only before it is posted. -/
def Honest (x : Desk) : QLabel → Prop
  | .submit req mapped =>
      sglLen req.sgl = req.count ∧
      (x.sys.q.isRx = true → req.fpDone = true → req.write = true) ∧
      (req.count = 0 → x.sys.q.conf.st = true ∧ x.sys.Takes req mapped)
  | .worker => x.sys.q.isRx = true ∨ Careful x.sys.toSys .worker
  | .service _ _ => x.sys.q.isRx = true ∨ Careful x.sys.toSys .wb
  | .wait id => x.sys.q.isRx = true ∨ (x.sys.q.doneCb id).isSome = true ∨
      ∀ cb ∈ x.sys.q.reqs, cb.id = id → cb.descNr = 0 ∧ cb.offset ≠ cb.req.count
  | _ => True

/-- A queue that begins: on a memory-mapped or ST H2C queue just started, on any without
requests. -/
structure Begins (q : Descq) : Prop where
  started : q.isRx = false → Started q
  workList : q.workList = []
  pendList : q.pendList = []
  finished : q.finished = []

end Qdma
