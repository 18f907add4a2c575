/-
# Runs of a queue of any kind

A queue of any of the three kinds with its callers and its device, stopped, configured and
started again as often as one likes.  `QSys.step` chooses between the data paths the way the
code does, by the kind of the queue.

A step of the data path changes neither the configuration nor the state of the queue
(`Descq.fixed`), and on a memory-mapped or ST H2C queue nothing of the receive side
(`Descq.rxPart`).
-/
import Qdma.RxFrame
import Qdma.TxFrame
import Qdma.Exec

namespace Qdma

/-! ## The system -/

/-- A queue with its callers: the requests so far, the callers between the two locked
sections of a read, and those asleep. -/
structure QSys where
  q : Descq
  nreq : ℕ := 0
  parked : List SgtReqCb := []
  waiters : List ℕ := []

/-- The steps of the data path, and those of the life of the queue. -/
inductive QLabel where
  | submit (req : Request) (mapped : Bool)
  | pend (id : ℕ)
  | worker
  | service (budget : ℤ) (fill : ℕ → FillOutcome)
  | wait (id : ℕ)
  | packetRead (req : Request)
  /-- The device writes its consumer index, the completion ring and the receive buffers. -/
  | device (wbCidx : ℕ) (mem : ℕ → ℕ) (wbPidx : ℕ) (page : ℕ → ℕ → UInt8)
  | stop (ctxCleared : Bool)
  | reconfig (qconf : QueueConf) (numVecs : ℕ)
  | start (env : StartEnv)

/-- The step is one of the data path. -/
def QLabel.Traffic : QLabel → Prop
  | .stop _ => False
  | .reconfig _ _ => False
  | .start _ => False
  | _ => True

instance (l : QLabel) : Decidable l.Traffic :=
  match l with
  | .stop _ | .reconfig _ _ | .start _ => inferInstanceAs (Decidable False)
  | .submit _ _ | .pend _ | .worker | .service _ _ | .wait _ | .packetRead _
  | .device _ _ _ _ => inferInstanceAs (Decidable True)

/-- `descq->conf.st && descq->conf.c2h`. -/
def Descq.isRx (d : Descq) : Bool := d.conf.st && d.conf.c2h

/-- The caller of request `id` sleeps if it has no callback. -/
def QSys.sleep (s : QSys) (id : ℕ) (req : Request) : QSys :=
  if req.fpDone then s else { s with waiters := s.waiters ++ [id] }

/-- `qdma_request_submit` up to its wait, or, on an ST C2H queue, up to the end of its first
locked section. -/
def QSys.submit (s : QSys) (req : Request) (mapped : Bool) : QSys :=
  let id := s.nreq
  let s := { s with nreq := id + 1 }
  if s.q.isRx then
    if req.write then s
    else
      let (q, cb) := submitStC2hRead s.q id req
      let s := { s with q := q }
      if cb.left = 0 then s else { s with parked := s.parked ++ [cb] }
  else
    let (q, rv) := qdmaRequestSubmit s.q id req mapped
    let s := { s with q := q }
    match rv with
    | some _ => s
    | none => s.sleep id req

/-- The second locked section of a read. -/
def QSys.pend (s : QSys) (cb : SgtReqCb) : QSys :=
  let (q, rv) := submitStC2hPend s.q cb
  let s := { s with q := q, parked := s.parked.filter (fun c => c.id ≠ cb.id) }
  match rv with
  | some _ => s
  | none => s.sleep cb.id cb.req

/-- `qdma_descq_service_wb`. -/
def qdmaDescqServiceWb (d : Descq) (budget : ℤ) (fill : ℕ → FillOutcome) : Descq :=
  if d.isRx then (descqProcessCompletionStC2h d budget fill).1 else descqMmNH2cWb d

/-- What the device writes. -/
def Descq.deviceWrites (d : Descq) (wbCidx : ℕ) (mem : ℕ → ℕ) (wbPidx : ℕ)
    (page : ℕ → ℕ → UInt8) : Descq :=
  let d := { d with desc := { d.desc with wbCidx := wbCidx } }
  if d.isRx then
    { d with
      descWrb := { d.descWrb with mem := mem, wbPidx := wbPidx }
      flq := { d.flq with sdesc := fun i => { d.flq.sdesc i with page := page i } } }
  else d

/-- One step. -/
def QSys.step (s : QSys) : QLabel → QSys
  | .submit req mapped => s.submit req mapped
  | .pend id =>
      match s.parked.find? (fun c => c.id = id) with
      | some cb => s.pend cb
      | none => s
  | .worker => { s with q := qdmaThreadWrkProc s.q }
  | .service budget fill => { s with q := qdmaDescqServiceWb s.q budget fill }
  | .wait id =>
      { s with
        q := (qdmaRequestWaitForCmpl s.q id).1
        waiters := s.waiters.filter (· ≠ id) }
  | .packetRead req =>
      { s with q := (qdmaQueuePacketRead s.q s.nreq req).1, nreq := s.nreq + 1 }
  | .device wbCidx mem wbPidx page => { s with q := s.q.deviceWrites wbCidx mem wbPidx page }
  | .stop ctxCleared => if s.q.enabled then { s with q := descqStop s.q ctxCleared } else s
  | .reconfig qconf numVecs => { s with q := (descqReconfig s.q qconf numVecs).1 }
  | .start env => if s.q.enabled then { s with q := (descqStart s.q env).1 } else s

/-! ## What the data path leaves alone -/

/-- The configuration and the state of a queue. -/
def Descq.fixed (d : Descq) : QueueConf × Bool × Bool × Bool × Bool :=
  (d.conf, d.enabled, d.inited, d.online, d.descWrb.alloc)

/-- The receive side of a queue, without the completion ring. -/
def Descq.rxPart (d : Descq) : Bool × Flq × Bool × ℕ × ℕ × ℕ × ℕ :=
  (d.err, d.flq, d.color, d.cidxWrb, d.pidxWrb, d.cidxWrbPend, d.descWrbCur)

/-- The requests of a queue. -/
def Descq.reqPart (d : Descq) : List SgtReqCb × List SgtReqCb × List Done :=
  (d.workList, d.pendList, d.finished)

/-- `f` reads nothing that the data path of a queue of any kind writes. -/
structure DataFrame {α : Type*} (f : Descq → α) : Prop extends ServeFrame f, TxFrame f where
  loop : LoopFrame f
  device : ∀ d wbCidx mem wbPidx page, f (d.deviceWrites wbCidx mem wbPidx page) = f d

theorem fixed_txFrame : TxFrame Descq.fixed :=
  ⟨⟨fun _ _ _ => rfl, fun _ _ => rfl⟩, fun _ _ => rfl, fun _ _ _ _ => rfl, fun _ _ _ => rfl⟩

theorem rxPart_txFrame : TxFrame Descq.rxPart :=
  ⟨⟨fun _ _ _ => rfl, fun _ _ => rfl⟩, fun _ _ => rfl, fun _ _ _ _ => rfl, fun _ _ _ => rfl⟩

/-- Filling descriptors leaves the lists of requests alone. -/
theorem reqPart_fillFrame : FillFrame Descq.reqPart := ⟨fun _ _ _ => rfl, fun _ _ => rfl⟩

/-- The receive side changes neither the configuration nor the state of the queue. -/
theorem fixed_serveFrame : ServeFrame Descq.fixed :=
  ⟨⟨⟨fun _ _ _ => rfl, fun _ _ => rfl, fun _ _ => rfl⟩, fun _ _ => rfl, fun _ _ => rfl,
    fun _ _ => rfl⟩, fun _ _ _ _ => rfl, fun _ _ _ => rfl⟩

theorem fixed_loopFrame : LoopFrame Descq.fixed :=
  ⟨fixed_serveFrame.toBufFrame, fun _ _ => rfl, fun _ _ _ _ => rfl⟩

theorem fixed_dataFrame : DataFrame Descq.fixed :=
  { fixed_serveFrame, fixed_txFrame with
    loop := fixed_loopFrame
    device := fun d _ _ _ _ => by
      unfold Descq.deviceWrites
      simp only
      split_ifs <;> rfl }

/-- Reading and receiving leave the lists of requests alone. -/
theorem reqPart_rxFrame : RxFrame Descq.reqPart :=
  ⟨⟨fun _ _ _ => rfl, fun _ _ => rfl, fun _ _ => rfl⟩, fun _ _ => rfl, fun _ _ => rfl,
    fun _ _ => rfl⟩

theorem reqPart_loopFrame : LoopFrame Descq.reqPart :=
  ⟨reqPart_rxFrame.toBufFrame, fun _ _ => rfl, fun _ _ _ _ => rfl⟩

/-! ## Steps of the data path -/

section Frame

variable {α : Type*} {f : Descq → α}

theorem sleep_q (s : QSys) (id : ℕ) (req : Request) : (s.sleep id req).q = s.q := by
  unfold QSys.sleep
  split_ifs <;> rfl

theorem DataFrame.serviceWb (hf : DataFrame f) (d : Descq) (budget : ℤ)
    (fill : ℕ → FillOutcome) : f (qdmaDescqServiceWb d budget fill) = f d := by
  unfold qdmaDescqServiceWb
  split_ifs
  · exact hf.toServeFrame.processCompletion hf.loop _ _ _
  · exact hf.wb d

theorem DataFrame.submitPend (hf : DataFrame f) (d : Descq) (cb : SgtReqCb) :
    f (submitStC2hPend d cb).1 = f d := by
  unfold submitStC2hPend
  split_ifs
  · exact (hf.bell _ _).trans (hf.queues d d.workList _ d.finished)
  · rfl

theorem DataFrame.sysSubmit (hf : DataFrame f) (s : QSys) (req : Request) (mapped : Bool) :
    f (s.submit req mapped).q = f s.q := by
  unfold QSys.submit
  simp only
  split_ifs
  · rfl
  · exact hf.read _ _ _ _
  · exact hf.read _ _ _ _
  · have hq := hf.submit s.q s.nreq req mapped
    split
    · exact hq
    · rw [sleep_q]
      exact hq

theorem DataFrame.sysPend (hf : DataFrame f) (s : QSys) (cb : SgtReqCb) :
    f (s.pend cb).q = f s.q := by
  have hq := hf.submitPend s.q cb
  unfold QSys.pend
  simp only
  split
  · exact hq
  · rw [sleep_q]
    exact hq

/-- **Frame of the data path.** -/
theorem DataFrame.step (hf : DataFrame f) (s : QSys) {l : QLabel} (hl : l.Traffic) :
    f (s.step l).q = f s.q := by
  cases l with
  | submit req mapped => exact hf.sysSubmit s req mapped
  | pend id =>
      unfold QSys.step
      simp only
      split
      · exact hf.sysPend s _
      · rfl
  | worker => exact hf.wrkProcLoop _ _
  | service budget fill => exact hf.serviceWb s.q budget fill
  | wait id => exact hf.wait s.q id
  | packetRead req => exact hf.packetRead _ _ _
  | device wbCidx mem wbPidx page => exact hf.device _ _ _ _ _
  | stop | reconfig | start => exact absurd hl id

end Frame

/-- **Frame.**  A step of the data path leaves the configuration and the state alone. -/
theorem fixed_step (s : QSys) {l : QLabel} (hl : l.Traffic) : (s.step l).q.fixed = s.q.fixed :=
  fixed_dataFrame.step s hl

/-- **Frame.**  On a memory-mapped or ST H2C queue it leaves the receive side alone, too. -/
theorem rxPart_step (s : QSys) {l : QLabel} (hl : l.Traffic) (hkind : s.q.isRx = false) :
    (s.step l).q.rxPart = s.q.rxPart := by
  cases l with
  | submit req mapped =>
      show (s.submit req mapped).q.rxPart = _
      unfold QSys.submit
      simp only [hkind, Bool.false_eq_true, if_false]
      have hq := rxPart_txFrame.submit s.q s.nreq req mapped
      split
      · exact hq
      · rw [sleep_q]
        exact hq
  | pend id =>
      unfold QSys.step QSys.pend submitStC2hPend QSys.sleep
      simp only
      split
      · cases s.q.online
        · rfl
        · simp only [if_true]
          split_ifs <;> rfl
      · rfl
  | worker => exact rxPart_txFrame.wrkProcLoop _ _
  | service budget fill =>
      show (qdmaDescqServiceWb s.q budget fill).rxPart = _
      unfold qdmaDescqServiceWb
      rw [if_neg (by rw [hkind]; decide)]
      exact rxPart_txFrame.wb s.q
  | wait id => exact rxPart_txFrame.wait s.q id
  | packetRead req =>
      show (qdmaQueuePacketRead s.q s.nreq req).1.rxPart = _
      have hno : (!s.q.conf.st || !s.q.conf.c2h) = true := by
        rw [← Bool.not_and]
        exact congrArg (!·) hkind
      unfold qdmaQueuePacketRead
      rw [if_pos hno]
  | device wbCidx mem wbPidx page =>
      show (s.q.deviceWrites wbCidx mem wbPidx page).rxPart = _
      have hkind' : Descq.isRx { s.q with desc := { s.q.desc with wbCidx := wbCidx } } = false :=
        hkind
      unfold Descq.deviceWrites
      rw [if_neg (by rw [hkind']; decide)]
      rfl
  | stop | reconfig | start => exact absurd hl id

end Qdma
