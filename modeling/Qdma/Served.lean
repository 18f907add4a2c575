/-
# A queue that is online is served

`qdma_queue_start` sets `online` in one section of the queue's lock and gives the queue to a
thread later; `qdma_queue_stop` takes it from its thread and frees the rings first and clears
`online` at the end.  Meanwhile callers submit requests, threads pass over the queue, and its
completions are serviced.  Here calls of the three take one step at a time, each a section under
the queue's lock or the code between two of them.

`online_served` says in which runs an online queue has its rings and its thread, in every state;
`online_unserved` has a start after which a request wakes no thread.  Alone, a call does what the
device's model of it does (`start_alone`, `stop_alone`).
-/
import Qdma.Lifecycle
import Qdma.QueueRun
import Qdma.RingRun

namespace Qdma

open Exec ListHeads

/-! ## Calls under way -/

/-- Where a call of `qdma_queue_start` stands: before `qdma_descq_config_complete`, before its
check of the flags, before `qdma_descq_alloc_resource`, before `qdma_descq_prog_hw` with what the
allocation returned, before `qdma_thread_add_work`, before the locked section of that with the
threads picked, before the list of the vector. -/
inductive StartPc where
  | config
  | check
  | alloc
  | progHw (rv : ℤ)
  | link
  | assign (rq : ℕ) (cmpl : Option ℕ)
  | intr

/-- Where a call of `qdma_queue_stop` stands: before the locked section of
`qdma_thread_remove_work`, before the lists and the rings with the threads found, before its own
locked section. -/
inductive StopPc where
  | detach
  | release (rq cmpl : Option ℕ)
  | offline

/-- Where a call of `qdma_request_submit` stands: before its one locked section, or on an ST C2H
queue before its two, before it wakes a thread, before the end of its wait. -/
inductive SubmitPc where
  | enqueue (mapped : Bool)
  | read
  | pend (cb : SgtReqCb)
  | wake
  | wait

/-- A call under way. -/
inductive DescqCall where
  | start (env : StartEnv) (pc : StartPc)
  | stop (ctxCleared : Bool) (pc : StopPc)
  | submit (req : Request) (pc : SubmitPc)

/-- The device, the calls under way on one of its queues, each under a number of its own, and
whether `descq->work` of the queue is scheduled.  `badWake` says that the thread that a submission
wakes is not there, `badPass` that a thread or a service call passed over a queue without rings. -/
structure ServeSys where
  dev : QdmaDev
  calls : ℕ → Option DescqCall := fun _ => none
  work : Bool := false
  badWake : Bool := false
  badPass : Bool := false

/-- A step of `qdma_queue_start`: the device, and where the call stands then, if it goes on. -/
def QdmaDev.startStep (x : QdmaDev) (id : ℕ) (env : StartEnv) : StartPc → QdmaDev × Option StartPc
  | .config =>
      let (d, rv) := startConfig (x.descq id) env.csr
      (x.setDescq id d, if rv < 0 then none else some .check)
  | .check =>
      let (d, rv) := startCheck (x.descq id)
      (x.setDescq id d, if rv < 0 then none else some .alloc)
  | .alloc =>
      let (d, rv) := qdmaDescqAllocResource (x.descq id) env.alloc x.pickVec
      let x := x.setDescq id d
      (if rv < 0 then x else x.countVec, some (.progHw rv))
  | .progHw rv =>
      let (d, rv) := startProgHw (x.descq id) rv env
      (x.setDescq id d, if rv < 0 then none else some .link)
  | .link => (x.threadLink id, some (.assign x.pickThread x.pickCmplThread))
  | .assign rq cmpl => (x.threadAssign id (some rq) cmpl, some .intr)
  | .intr => (x.intrLink id, none)

/-- A step of `qdma_queue_stop`. -/
def QdmaDev.stopStep (x : QdmaDev) (id : ℕ) (ctxCleared : Bool) : StopPc → QdmaDev × Option StopPc
  | .detach => (x.threadAssign id none none, some (.release (x.descq id).wrkthp (x.descq id).wbthp))
  | .release rq cmpl =>
      let x := ((x.unlinkWrk id rq).unlinkWb id cmpl).intrUnlink id
      (x.setDescq id (stopRelease (x.descq id) ctxCleared), some .offline)
  | .offline => (x.setDescq id (stopOffline (x.descq id)), none)

/-- A step of `qdma_request_submit`, for request `k`. -/
def QdmaDev.submitStep (x : QdmaDev) (id k : ℕ) (req : Request) :
    SubmitPc → QdmaDev × Option SubmitPc
  | .enqueue mapped =>
      let (d, rv) := qdmaRequestSubmit (x.descq id) k req mapped
      (x.setDescq id d, if rv.isSome then none else some .wake)
  | .read =>
      if req.write then (x, none)
      else
        let (d, cb) := submitStC2hRead (x.descq id) k req
        (x.setDescq id d, if cb.left = 0 then none else some (.pend cb))
  | .pend cb =>
      let (d, rv) := submitStC2hPend (x.descq id) cb
      (x.setDescq id d, if rv.isSome then none else some .wake)
  | .wake => (x, if req.fpDone then none else some .wait)
  | .wait => (x.setDescq id (qdmaRequestWaitForCmpl (x.descq id) k).1, none)

/-- A step of call `k`. -/
def QdmaDev.descqStep (x : QdmaDev) (id k : ℕ) : DescqCall → QdmaDev × Option DescqCall
  | .start env pc =>
      let (x, pc) := x.startStep id env pc
      (x, pc.map (.start env))
  | .stop ctxCleared pc =>
      let (x, pc) := x.stopStep id ctxCleared pc
      (x, pc.map (.stop ctxCleared))
  | .submit req pc =>
      let (x, pc) := x.submitStep id k req pc
      (x, pc.map (.submit req))

/-- The thread that `wrkthp` points to has the queue on its work list. -/
def QdmaDev.hasWorker (x : QdmaDev) (id : ℕ) : Bool :=
  match (x.descq id).wrkthp with
  | some i => decide (id ∈ (x.wrk i).workList)
  | none => false

/-- So has the thread that `wbthp` points to; in interrupt mode there is none. -/
def QdmaDev.hasCmpl (x : QdmaDev) (id : ℕ) : Bool :=
  match (x.descq id).wbthp with
  | some j => decide (id ∈ (x.wb j).workList)
  | none => decide (x.numVecs ≠ 0)

/-- A request that the queue has accepted is seen by the thread that its caller wakes, or, on an
ST C2H queue in interrupt mode, by the service of the next interrupt. -/
def QdmaDev.handsOver (x : QdmaDev) (id : ℕ) : Bool :=
  if (x.descq id).isRx then x.hasCmpl id else x.hasWorker id

/-- The rings of a queue are there. -/
def Descq.HasRings (d : Descq) : Prop :=
  d.desc.alloc = true ∧ (d.isRx = true → d.descWrb.alloc = true ∧ d.flq.sdescAlloc = true)

instance (d : Descq) : Decidable d.HasRings := inferInstanceAs (Decidable (_ ∧ (_ → _)))

/-- A pass over the queue, which leaves it as `d`. -/
def ServeSys.pass (s : ServeSys) (id : ℕ) (d : Descq) : ServeSys :=
  { s with
    dev := s.dev.setDescq id d
    badPass := s.badPass || !decide (s.dev.descq id).HasRings }

/-- Whether a request has been left without a thread after the next step of a call. -/
def ServeSys.badWakeAfter (s : ServeSys) (id : ℕ) : DescqCall → Bool
  | .submit _ .wake => s.badWake || !s.dev.handsOver id
  | _ => s.badWake

/-- The first steps of the calls. -/
inductive ServeEnter where
  | start (env : StartEnv)
  | stop (ctxCleared : Bool)
  | submit (req : Request) (mapped : Bool)

/-- A call that has found its queue. -/
def ServeEnter.call (d : Descq) : ServeEnter → DescqCall
  | .start env => .start env .config
  | .stop ctxCleared => .stop ctxCleared .detach
  | .submit req mapped => .submit req (if d.isRx then .read else .enqueue mapped)

/-- The steps of a run: a call begins under the number `k`, or takes its next step; request thread
`i` or completion thread `j` passes over the queue, if it is on its list; an interrupt schedules
the work of the queues on the list of its vector, and the work runs; a service call comes from
`qdma_queue_service`, or from the entry of an interrupt ring; and the device writes its indices,
the completion ring and the receive buffers. -/
inductive ServeStep where
  | enter (k : ℕ) (e : ServeEnter)
  | go (k : ℕ)
  | worker (i : ℕ)
  | cmpl (j : ℕ) (fill : ℕ → FillOutcome)
  | irq
  | work (fill : ℕ → FillOutcome)
  | service (budget : ℤ) (fill : ℕ → FillOutcome)
  | device (wbCidx : ℕ) (mem : ℕ → ℕ) (wbPidx : ℕ) (page : ℕ → ℕ → UInt8)

/-- One step, for queue `id`. -/
def ServeSys.step (id : ℕ) (s : ServeSys) : ServeStep → ServeSys
  | .enter k e =>
      if (s.calls k).isSome ∨ ¬ s.dev.Has id then s
      else { s with calls := Function.update s.calls k (some (e.call (s.dev.descq id))) }
  | .go k =>
      match s.calls k with
      | none => s
      | some call =>
          let (x, call') := s.dev.descqStep id k call
          { s with
            dev := x
            calls := Function.update s.calls k call'
            badWake := s.badWakeAfter id call }
  | .worker i =>
      if id ∈ (s.dev.wrk i).workList then s.pass id (qdmaThreadWrkProc (s.dev.descq id)) else s
  | .cmpl j fill =>
      if id ∈ (s.dev.wb j).workList then s.pass id (qdmaDescqServiceWb (s.dev.descq id) 0 fill)
      else s
  | .irq => if id ∈ s.dev.intrList (s.dev.descq id).intrId then { s with work := true } else s
  | .work fill =>
      if s.work then { s with work := false }.pass id (qdmaDescqServiceWb (s.dev.descq id) 0 fill)
      else s
  | .service budget fill => s.pass id (qdmaDescqServiceWb (s.dev.descq id) budget fill)
  | .device wbCidx mem wbPidx page =>
      { s with
        dev := s.dev.setDescq id ((s.dev.descq id).deviceWrites wbCidx mem wbPidx page) }

/-! ## The law -/

/-- **Online means served.**  The queue has its rings and its thread if it is online; every request
accepted was seen by a thread, and every pass found the rings. -/
structure ServedInv (s : ServeSys) (id : ℕ) : Prop where
  online : (s.dev.descq id).online = true →
    (s.dev.descq id).HasRings ∧ s.dev.hasWorker id = true
  handed : s.badWake = false
  passes : s.badPass = false

/-- Nothing is under way, and the queue is idle or running as the calls leave it one after the
other. -/
structure Settled (s : ServeSys) (id : ℕ) : Prop where
  queue : QueueInv s.dev id
  calls : ∀ k, s.calls k = none
  work : s.work = false
  badWake : s.badWake = false
  badPass : s.badPass = false

/-- **The steps that keep the law.**  No start gets its rings and its contexts; of a queue that is
online no start fails to read the CSRs, and no stop takes it from its thread; and no service call
is made from outside for a queue without rings. -/
def ServeLegal (s : ServeSys) (id : ℕ) : ServeStep → Prop
  | .go k =>
      match s.calls k with
      | some (.start env .config) => env.csr = none → (s.dev.descq id).online = false
      | some (.start env (.progHw rv)) => 0 ≤ rv → env.ctx ≠ .ok
      | some (.stop _ .detach) => (s.dev.descq id).online = false
      | _ => True
  | .service _ _ => (s.dev.descq id).HasRings
  | _ => True

/-! ## What the steps leave alone -/

/-- The state of a queue, its threads and its rings are the same. -/
structure SameUp (d d' : Descq) : Prop where
  life : d'.life = d.life
  rings : d'.rings = d.rings

theorem SameUp.refl (d : Descq) : SameUp d d := ⟨rfl, rfl⟩

/-- What the data path of a queue of any kind leaves alone by its frames. -/
def Descq.upPart (d : Descq) :
    (Bool × Bool × Bool × Bool × Option ℕ × Option ℕ × Bool) × Bool × Bool :=
  (d.life, d.desc.alloc, d.descWrb.alloc)

theorem upPart_dataFrame : DataFrame Descq.upPart :=
  { bufs := fun _ _ _ => rfl, pend := fun _ _ => rfl, warned := fun _ _ => rfl,
    slots := fun _ _ => rfl, regs := fun _ _ => rfl, copied := fun _ _ => rfl,
    lists := fun _ _ _ _ => rfl, pidx := fun _ _ _ => rfl,
    put := fun _ _ _ => rfl, bell := fun _ _ => rfl, avail := fun _ _ => rfl,
    queues := fun _ _ _ _ => rfl, credit := fun _ _ _ => rfl
    loop := { bufs := fun _ _ _ => rfl, pend := fun _ _ => rfl, warned := fun _ _ => rfl,
              err := fun _ _ => rfl, next := fun _ _ _ _ => rfl }
    device := fun d _ _ _ _ => by
      unfold Descq.deviceWrites
      simp only
      split_ifs <;> rfl }

theorem sdescAlloc_txFrame : TxFrame (fun d : Descq => d.flq.sdescAlloc) :=
  ⟨⟨fun _ _ _ => rfl, fun _ _ => rfl⟩, fun _ _ => rfl, fun _ _ _ _ => rfl, fun _ _ _ => rfl⟩

theorem sdescAlloc_flqFrame : FlqRcvFrame Flq.sdescAlloc :=
  ⟨⟨fun _ _ _ _ _ => rfl, fun _ _ _ _ _ _ => rfl⟩, fun _ _ => rfl⟩

theorem SameUp.of_part {d d' : Descq} (h : d'.upPart = d.upPart)
    (hs : d'.flq.sdescAlloc = d.flq.sdescAlloc) : SameUp d d' := by
  have hw : d'.descWrb.alloc = d.descWrb.alloc := congrArg (·.2.2) h
  have hd : d'.desc.alloc = d.desc.alloc := congrArg (·.2.1) h
  refine ⟨congrArg Prod.fst h, ?_⟩
  unfold Descq.rings
  rw [hd, hw, hs]

theorem sameUp_worker (d : Descq) : SameUp d (qdmaThreadWrkProc d) :=
  .of_part (upPart_dataFrame.wrkProcLoop _ d) (sdescAlloc_txFrame.wrkProcLoop _ d)

theorem sameUp_service (d : Descq) (budget : ℤ) (fill : ℕ → FillOutcome) :
    SameUp d (qdmaDescqServiceWb d budget fill) := by
  refine .of_part (upPart_dataFrame.serviceWb d budget fill) ?_
  unfold qdmaDescqServiceWb
  split_ifs
  · exact sdescAlloc_flqFrame.processCompletion (fun _ _ _ => rfl) d budget fill
  · exact sdescAlloc_txFrame.wb d

theorem sameUp_device (d : Descq) (wbCidx : ℕ) (mem : ℕ → ℕ) (wbPidx : ℕ)
    (page : ℕ → ℕ → UInt8) : SameUp d (d.deviceWrites wbCidx mem wbPidx page) := by
  refine .of_part (upPart_dataFrame.device d _ _ _ _) ?_
  unfold Descq.deviceWrites
  simp only
  split_ifs
  · rfl
  · rfl

theorem sameUp_pend (d : Descq) (cb : SgtReqCb) : SameUp d (submitStC2hPend d cb).1 := by
  refine .of_part (upPart_dataFrame.submitPend d cb) ?_
  unfold submitStC2hPend
  split_ifs
  · rfl
  · rfl

/-- A step of a submission. -/
theorem sameUp_submit (x : QdmaDev) (id k : ℕ) (req : Request) (pc : SubmitPc) :
    SameUp (x.descq id) ((x.submitStep id k req pc).1.descq id) := by
  cases pc with
  | enqueue mapped =>
      show SameUp _ ((x.setDescq id _).descq id)
      rw [setDescq_self]
      exact .of_part (upPart_dataFrame.submit _ k req mapped)
        (sdescAlloc_txFrame.submit _ k req mapped)
  | read =>
      unfold QdmaDev.submitStep
      by_cases hwr : req.write = true
      · rw [if_pos hwr]
        exact .refl _
      · rw [if_neg hwr]
        show SameUp _ ((x.setDescq id _).descq id)
        rw [setDescq_self]
        exact .of_part (upPart_dataFrame.read _ _ _ _) (sdescAlloc_flqFrame.read _ _ _ _)
  | pend cb =>
      show SameUp _ ((x.setDescq id _).descq id)
      rw [setDescq_self]
      exact sameUp_pend _ cb
  | wake => exact .refl _
  | wait =>
      show SameUp _ ((x.setDescq id _).descq id)
      rw [setDescq_self]
      exact .of_part (upPart_dataFrame.wait _ k) (sdescAlloc_txFrame.wait _ k)

/-- Where the queue is linked is the same. -/
structure SameLists (x x' : QdmaDev) : Prop where
  numVecs : x'.numVecs = x.numVecs
  wrk : x'.wrk = x.wrk
  wb : x'.wb = x.wb
  intrList : x'.intrList = x.intrList

theorem sameLists_submit (x : QdmaDev) (id k : ℕ) (req : Request) (pc : SubmitPc) :
    SameLists x (x.submitStep id k req pc).1 := by
  cases pc with
  | read =>
      unfold QdmaDev.submitStep
      by_cases hwr : req.write = true
      · rw [if_pos hwr]
        exact ⟨rfl, rfl, rfl, rfl⟩
      · rw [if_neg hwr]
        exact ⟨rfl, rfl, rfl, rfl⟩
  | enqueue | pend | wake | wait => exact ⟨rfl, rfl, rfl, rfl⟩

/-- Whether a queue is online, and its threads. -/
def Descq.attach (d : Descq) : Bool × Option ℕ × Option ℕ := (d.online, d.wrkthp, d.wbthp)

theorem attach_of_life {d d' : Descq} (h : d'.life = d.life) : d'.attach = d.attach := by
  have h₁ : d'.online = d.online := congrArg (·.2.2.1) h
  have h₂ : d'.wrkthp = d.wrkthp := congrArg (·.2.2.2.2.1) h
  have h₃ : d'.wbthp = d.wbthp := congrArg (·.2.2.2.2.2.1) h
  unfold Descq.attach
  rw [h₁, h₂, h₃]

theorem attach_frame : RingFrame Descq.attach :=
  ⟨fun _ _ _ _ _ => rfl, fun _ _ => rfl, fun _ _ => rfl⟩

theorem attach_freeResource (d : Descq) : (startFreeResource d).attach = d.attach :=
  attach_frame.free d

theorem attach_allocResource (d : Descq) (env : AllocEnv) (irq : Option ℕ) :
    (qdmaDescqAllocResource d env irq).1.attach = d.attach :=
  attach_frame.alloc (fun _ _ => rfl) d env irq

theorem attach_startCheck (d : Descq) : (startCheck d).1.attach = d.attach := by
  unfold startCheck
  split_ifs
  · rfl
  · rfl

/-- The second locked section of a start that fails. -/
theorem attach_progHw {d : Descq} {rv : ℤ} {env : StartEnv} (h : 0 ≤ rv → env.ctx ≠ .ok) :
    (startProgHw d rv env).1.attach = d.attach ∧ (startProgHw d rv env).2 < 0 := by
  unfold startProgHw
  by_cases hrv : rv < 0
  · rw [if_pos hrv]
    exact ⟨attach_freeResource d, hrv⟩
  rw [if_neg hrv]
  cases hctx : env.ctx with
  | ok => exact absurd hctx (h (not_lt.mp hrv))
  | fail valid =>
      have heio : eio < 0 := by decide
      show (if eio < 0 then _ else _ : Descq × ℤ).1.attach = _ ∧
        (if eio < 0 then _ else _ : Descq × ℤ).2 < 0
      rw [if_pos heio]
      exact ⟨attach_freeResource _, heio⟩

/-- A start that gets its contexts. -/
theorem attach_progHw_ok {d : Descq} {rv : ℤ} {env : StartEnv} (hrv : 0 ≤ rv)
    (hctx : env.ctx = .ok) :
    (startProgHw d rv env).1.attach = (true, d.wrkthp, d.wbthp) := by
  have hok : (qdmaDescqProgHw d .ok).2 = 0 ∧ (qdmaDescqProgHw d .ok).1.attach = d.attach := by
    unfold qdmaDescqProgHw
    simp only
    split_ifs
    · exact ⟨rfl, rfl⟩
    · exact ⟨rfl, rfl⟩
  unfold startProgHw
  rw [if_neg (not_lt.mpr hrv), hctx]
  show (if (qdmaDescqProgHw d .ok).2 < 0 then _ else _ : Descq × ℤ).1.attach = _
  rw [hok.1, if_neg (lt_irrefl 0)]
  exact congrArg (fun p : Bool × Option ℕ × Option ℕ => (true, p.2)) hok.2

/-! ## The invariant -/

theorem SameUp.isRx {d d' : Descq} (h : SameUp d d') : d'.isRx = d.isRx :=
  congrArg (·.2.2.2.2.2.2) h.life

theorem SameUp.hasRings {d d' : Descq} (h : SameUp d d') (hr : d.HasRings) : d'.HasRings := by
  have h₁ : d'.desc.alloc = d.desc.alloc := congrArg Prod.fst h.rings
  have h₂ : d'.descWrb.alloc = d.descWrb.alloc := congrArg (·.2.1) h.rings
  have h₃ : d'.flq.sdescAlloc = d.flq.sdescAlloc := congrArg (·.2.2) h.rings
  unfold Descq.HasRings
  rw [h.isRx, h₁, h₂, h₃]
  exact hr

/-- A call that an online queue has not turned away yet, or a submission. -/
def DescqCall.Early : DescqCall → Prop
  | .start _ .config => True
  | .start _ .check => True
  | .start _ _ => False
  | .stop _ .detach => True
  | .stop _ _ => False
  | .submit _ _ => True

/-- A call that has not linked the queue, did not find it linked, and was not accepted. -/
def DescqCall.Loose : DescqCall → Prop
  | .start _ .link => False
  | .start _ (.assign _ _) => False
  | .start _ .intr => False
  | .start _ _ => True
  | .stop _ (.release rq cmpl) => rq = none ∧ cmpl = none
  | .stop _ _ => True
  | .submit _ .wake => False
  | .submit _ .wait => False
  | .submit _ _ => True

/-- The queue is online and served. -/
structure Standing (s : ServeSys) (id : ℕ) : Prop where
  online : (s.dev.descq id).online = true
  rings : (s.dev.descq id).HasRings
  worker : s.dev.hasWorker id = true
  cmpl : s.dev.hasCmpl id = true
  calls : ∀ k call, s.calls k = some call → call.Early

/-- The queue is offline and on no list. -/
structure Down (s : ServeSys) (id : ℕ) : Prop where
  attach : (s.dev.descq id).attach = (false, none, none)
  unlinked : s.dev.Unlinked id
  work : s.work = false
  calls : ∀ k call, s.calls k = some call → call.Loose

/-- **The invariant**: one or the other, and nothing has gone wrong. -/
structure ServeInv (s : ServeSys) (id : ℕ) : Prop where
  queue : Standing s id ∨ Down s id
  handed : s.badWake = false
  passes : s.badPass = false

theorem Standing.congr {s s' : ServeSys} {id : ℕ} (h : Standing s id)
    (hd : SameUp (s.dev.descq id) (s'.dev.descq id)) (hl : SameLists s.dev s'.dev)
    (hc : ∀ k call, s'.calls k = some call → call.Early) : Standing s' id := by
  have hon : (s'.dev.descq id).online = (s.dev.descq id).online := congrArg (·.2.2.1) hd.life
  have hrq : (s'.dev.descq id).wrkthp = (s.dev.descq id).wrkthp :=
    congrArg (·.2.2.2.2.1) hd.life
  have hwb : (s'.dev.descq id).wbthp = (s.dev.descq id).wbthp :=
    congrArg (·.2.2.2.2.2.1) hd.life
  refine ⟨hon.trans h.online, hd.hasRings h.rings, ?_, ?_, hc⟩
  · unfold QdmaDev.hasWorker
    rw [hrq, hl.wrk]
    exact h.worker
  · unfold QdmaDev.hasCmpl
    rw [hwb, hl.wb, hl.numVecs]
    exact h.cmpl

theorem Standing.handsOver {s : ServeSys} {id : ℕ} (h : Standing s id) :
    s.dev.handsOver id = true := by
  unfold QdmaDev.handsOver
  split_ifs
  · exact h.cmpl
  · exact h.worker

theorem SameLists.unlinked {x x' : QdmaDev} (h : SameLists x x') {id : ℕ} (hu : x.Unlinked id) :
    x'.Unlinked id := by
  obtain ⟨h₁, h₂, h₃⟩ := hu
  refine ⟨?_, ?_, h.intrList ▸ h₃⟩
  · unfold QdmaDev.wrkLists
    rw [h.wrk]
    exact h₁
  · unfold QdmaDev.wbLists
    rw [h.wb]
    exact h₂

theorem Down.not_online {s : ServeSys} {id : ℕ} (h : Down s id) :
    (s.dev.descq id).online = false := congrArg Prod.fst h.attach

/-- **What holds of every state.** -/
theorem ServeInv.served {s : ServeSys} {id : ℕ} (h : ServeInv s id) : ServedInv s id := by
  refine ⟨fun hon => ?_, h.handed, h.passes⟩
  rcases h.queue with hup | hdown
  · exact ⟨hup.rings, hup.worker⟩
  · exact absurd (hdown.not_online.symm.trans hon) Bool.false_ne_true

/-- Call `k` takes a step. -/
theorem calls_step {calls : ℕ → Option DescqCall} {P : DescqCall → Prop} {k : ℕ}
    {call' : Option DescqCall} (h : ∀ k call, calls k = some call → P call)
    (h' : ∀ call, call' = some call → P call) :
    ∀ j call, Function.update calls k call' j = some call → P call := by
  intro j call hj
  by_cases hjk : j = k
  · subst hjk
    rw [Function.update_self] at hj
    exact h' call hj
  · rw [Function.update_of_ne hjk] at hj
    exact h j call hj

/-- A call that ends leaves the others. -/
theorem calls_end {calls : ℕ → Option DescqCall} {P : DescqCall → Prop} {k : ℕ}
    (h : ∀ k call, calls k = some call → P call) :
    ∀ j call, Function.update calls k none j = some call → P call :=
  calls_step h fun _ hnone => absurd hnone (Option.some_ne_none _).symm

/-! ## The steps -/

theorem step_call {s : ServeSys} {id k : ℕ} {call : DescqCall} (hcall : s.calls k = some call) :
    s.step id (.go k) =
      { s with
        dev := (s.dev.descqStep id k call).1
        calls := Function.update s.calls k (s.dev.descqStep id k call).2
        badWake := s.badWakeAfter id call } := by
  unfold ServeSys.step
  simp only [hcall]

/-- The submissions of an online queue. -/
theorem Standing.submit {s : ServeSys} {id k : ℕ} {req : Request} {pc : SubmitPc}
    (h : Standing s id) (hcall : s.calls k = some (.submit req pc)) :
    Standing (s.step id (.go k)) id ∧ (s.step id (.go k)).badWake = s.badWake := by
  rw [step_call hcall]
  constructor
  · refine h.congr (sameUp_submit s.dev id k req pc) (sameLists_submit s.dev id k req pc)
      (calls_step h.calls ?_)
    intro call hsome
    obtain ⟨pc', -, rfl⟩ := Option.map_eq_some_iff.mp hsome
    trivial
  · cases pc with
    | wake =>
        show (s.badWake || !s.dev.handsOver id) = s.badWake
        rw [h.handsOver]
        exact Bool.or_false _
    | enqueue | read | pend | wait => rfl

/-- A start of an online queue. -/
theorem Standing.start {s : ServeSys} {id k : ℕ} {env : StartEnv} {pc : StartPc}
    (h : Standing s id) (hcall : s.calls k = some (.start env pc))
    (hl : ServeLegal s id (.go k)) : Standing (s.step id (.go k)) id := by
  have hearly := h.calls k _ hcall
  unfold ServeLegal at hl
  simp only [hcall] at hl
  rw [step_call hcall]
  cases pc with
  | config =>
      cases hcsr : env.csr with
      | none => exact absurd (h.online.symm.trans (hl hcsr)) (by decide)
      | some csr =>
          obtain ⟨hlife, hrings, -⟩ := configComplete_life (s.dev.descq id) csr
          have hstep : s.dev.descqStep id k (.start env .config)
              = (s.dev.setDescq id (qdmaDescqConfigComplete (s.dev.descq id) csr),
                some (.start env .check)) := by
            unfold QdmaDev.descqStep QdmaDev.startStep
            simp only [hcsr]
            rfl
          rw [hstep]
          refine h.congr ?_ ⟨rfl, rfl, rfl, rfl⟩ (calls_step h.calls ?_)
          · show SameUp _ ((s.dev.setDescq id _).descq id)
            rw [setDescq_self]
            exact ⟨hlife, hrings⟩
          · rintro call ⟨⟩
            trivial
  | check =>
      -- it is turned away
      have hbusy : (!(s.dev.descq id).enabled || (s.dev.descq id).inited
          || (s.dev.descq id).online) = true := by rw [h.online, Bool.or_true]
      have hstep : s.dev.descqStep id k (.start env .check)
          = (s.dev.setDescq id (s.dev.descq id), none) := by
        unfold QdmaDev.descqStep QdmaDev.startStep startCheck
        simp only [if_pos hbusy]
        rfl
      rw [hstep]
      refine h.congr ?_ ⟨rfl, rfl, rfl, rfl⟩ (calls_end h.calls)
      show SameUp _ ((s.dev.setDescq id _).descq id)
      rw [setDescq_self]
      exact .refl _
  | alloc | progHw | link | assign | intr => exact False.elim hearly

/-- A pass over an online queue. -/
theorem Standing.pass {s : ServeSys} {id : ℕ} (h : Standing s id) {d : Descq}
    (hd : SameUp (s.dev.descq id) d) :
    Standing (s.pass id d) id ∧ (s.pass id d).badPass = s.badPass := by
  constructor
  · refine h.congr ?_ ⟨rfl, rfl, rfl, rfl⟩ h.calls
    show SameUp _ ((s.dev.setDescq id d).descq id)
    rw [setDescq_self]
    exact hd
  · show (s.badPass || !decide (s.dev.descq id).HasRings) = s.badPass
    rw [decide_eq_true h.rings]
    exact Bool.or_false _

/-- A step that leaves an offline queue offline and on no list. -/
theorem Down.congr {s s' : ServeSys} {id : ℕ} (h : Down s id)
    (hd : (s'.dev.descq id).attach = (s.dev.descq id).attach) (hu : s'.dev.Unlinked id)
    (hw : s'.work = s.work) (hc : ∀ k call, s'.calls k = some call → call.Loose) : Down s' id :=
  ⟨hd.trans h.attach, hu, hw.trans h.work, hc⟩

/-- The queue alone changes. -/
theorem unlinked_setDescq {x : QdmaDev} {id : ℕ} (h : x.Unlinked id) (d : Descq) :
    (x.setDescq id d).Unlinked id := ⟨h.wrk, h.wb, h.intr⟩

/-- A submission to an offline queue is refused. -/
theorem Down.submit {s : ServeSys} {id k : ℕ} {req : Request} {pc : SubmitPc}
    (h : Down s id) (hcall : s.calls k = some (.submit req pc)) :
    Down (s.step id (.go k)) id ∧ (s.step id (.go k)).badWake = s.badWake := by
  have hloose := h.calls k _ hcall
  have hsame := (sameUp_submit s.dev id k req pc).life
  have hlists := (sameLists_submit s.dev id k req pc).unlinked h.unlinked
  have hoff : (s.dev.descq id).online = false := h.not_online
  rw [step_call hcall]
  constructor
  · refine h.congr (attach_of_life hsame) hlists rfl (calls_step h.calls ?_)
    intro call hsome
    obtain ⟨pc', hpc', rfl⟩ := Option.map_eq_some_iff.mp hsome
    -- `enqueue` and `pend` see that the queue is not online; `read` goes on to `pend`
    cases pc with
    | enqueue mapped =>
        have hsome : (qdmaRequestSubmit (s.dev.descq id) k req mapped).2.isSome = true := by
          unfold qdmaRequestSubmit
          rw [hoff]
          split_ifs
          · rfl
          · rfl
          · rfl
          · rename_i hno
            exact absurd rfl hno
        replace hpc' : (if (qdmaRequestSubmit (s.dev.descq id) k req mapped).2.isSome = true
          then none else some SubmitPc.wake) = some pc' := hpc'
        rw [if_pos hsome] at hpc'
        exact absurd hpc' nofun
    | read =>
        replace hpc' : (s.dev.submitStep id k req .read).2 = some pc' := hpc'
        unfold QdmaDev.submitStep at hpc'
        simp only at hpc'
        by_cases hwr : req.write = true
        · rw [if_pos hwr] at hpc'
          exact absurd hpc' nofun
        · rw [if_neg hwr] at hpc'
          simp only at hpc'
          split_ifs at hpc'
          obtain rfl := Option.some_injective _ hpc'
          trivial
    | pend cb =>
        have hpend : submitStC2hPend (s.dev.descq id) cb = (s.dev.descq id, some einval) := by
          unfold submitStC2hPend
          rw [hoff]
          rfl
        replace hpc' : (s.dev.submitStep id k req (.pend cb)).2 = some pc' := hpc'
        unfold QdmaDev.submitStep at hpc'
        simp only [hpend, Option.isSome_some, if_true] at hpc'
        exact absurd hpc' nofun
    | wake | wait => exact False.elim hloose
  · cases pc with
    | wake => exact False.elim hloose
    | enqueue | read | pend | wait => rfl

/-- A start of an offline queue, which does not get its rings and its contexts. -/
theorem Down.start {s : ServeSys} {id k : ℕ} {env : StartEnv} {pc : StartPc}
    (h : Down s id) (hcall : s.calls k = some (.start env pc))
    (hl : ServeLegal s id (.go k)) : Down (s.step id (.go k)) id := by
  have hloose := h.calls k _ hcall
  unfold ServeLegal at hl
  simp only [hcall] at hl
  rw [step_call hcall]
  -- each step but the last keeps the queue as it was attached; that one fails
  cases pc with
  | config =>
      refine h.congr ?_ (unlinked_setDescq h.unlinked _) rfl (calls_step h.calls ?_)
      · show ((s.dev.setDescq id _).descq id).attach = _
        rw [setDescq_self]
        cases env.csr with
        | none => exact attach_freeResource _
        | some csr => exact attach_of_life (configComplete_life _ csr).1
      · intro call hsome
        obtain ⟨pc', hpc', rfl⟩ := Option.map_eq_some_iff.mp hsome
        replace hpc' : (if (startConfig (s.dev.descq id) env.csr).2 < 0 then none
          else some StartPc.check) = some pc' := hpc'
        split_ifs at hpc'
        obtain rfl := Option.some_injective _ hpc'
        trivial
  | check =>
      refine h.congr ?_ (unlinked_setDescq h.unlinked _) rfl (calls_step h.calls ?_)
      · show ((s.dev.setDescq id _).descq id).attach = _
        rw [setDescq_self]
        exact attach_startCheck _
      · intro call hsome
        obtain ⟨pc', hpc', rfl⟩ := Option.map_eq_some_iff.mp hsome
        replace hpc' : (if (startCheck (s.dev.descq id)).2 < 0 then none
          else some StartPc.alloc) = some pc' := hpc'
        split_ifs at hpc'
        obtain rfl := Option.some_injective _ hpc'
        trivial
  | alloc =>
      have hcount : ∀ (x : QdmaDev) (p : Prop) [Decidable p], x.Unlinked id →
          (if p then x else x.countVec).Unlinked id ∧
            (if p then x else x.countVec).descq = x.descq := by
        intro x p _ hx
        split_ifs
        · exact ⟨hx, rfl⟩
        · exact ⟨(sameLinks_countVec x).unlinked hx, (sameLinks_countVec x).descq⟩
      obtain ⟨hu, hd⟩ := hcount (s.dev.setDescq id
        (qdmaDescqAllocResource (s.dev.descq id) env.alloc s.dev.pickVec).1)
        ((qdmaDescqAllocResource (s.dev.descq id) env.alloc s.dev.pickVec).2 < 0)
        (unlinked_setDescq h.unlinked _)
      refine h.congr ?_ hu rfl (calls_step h.calls ?_)
      · refine (congrArg (fun q : ℕ → Descq => (q id).attach) hd).trans ?_
        show ((s.dev.setDescq id _).descq id).attach = _
        rw [setDescq_self]
        exact attach_allocResource _ _ _
      · rintro call ⟨⟩
        trivial
  | progHw rv =>
      obtain ⟨hattach, hneg⟩ := attach_progHw (d := s.dev.descq id) hl
      refine h.congr ?_ (unlinked_setDescq h.unlinked _) rfl (calls_step h.calls ?_)
      · show ((s.dev.setDescq id _).descq id).attach = _
        rw [setDescq_self]
        exact hattach
      · intro call hsome
        obtain ⟨pc', hpc', rfl⟩ := Option.map_eq_some_iff.mp hsome
        replace hpc' : (if (startProgHw (s.dev.descq id) rv env).2 < 0 then none
          else some StartPc.link) = some pc' := hpc'
        rw [if_pos hneg] at hpc'
        exact absurd hpc' nofun
  | link | assign | intr => exact False.elim hloose

/-- A stop of an offline queue finds it on no list. -/
theorem Down.stop {s : ServeSys} {id k : ℕ} {ctxCleared : Bool} {pc : StopPc}
    (h : Down s id) (hcall : s.calls k = some (.stop ctxCleared pc)) :
    Down (s.step id (.go k)) id := by
  have hloose := h.calls k _ hcall
  have hrq : (s.dev.descq id).wrkthp = none := congrArg (·.2.1) h.attach
  have hwb : (s.dev.descq id).wbthp = none := congrArg (·.2.2) h.attach
  rw [step_call hcall]
  cases pc with
  | detach =>
      refine h.congr ?_ (unlinked_setDescq h.unlinked _) rfl (calls_step h.calls ?_)
      · show ((s.dev.setDescq id _).descq id).attach = _
        rw [setDescq_self]
        show ((s.dev.descq id).online, none, none) = _
        rw [h.attach, h.not_online]
      · rintro call ⟨⟩
        exact ⟨hrq, hwb⟩
  | release rq cmpl =>
      obtain ⟨rfl, rfl⟩ := hloose
      have hx : (s.dev.intrUnlink id).Unlinked id ∧ (s.dev.intrUnlink id).descq = s.dev.descq := by
        unfold QdmaDev.intrUnlink
        simp only
        split_ifs
        · exact ⟨h.unlinked, rfl⟩
        · exact ⟨⟨h.unlinked.wrk, h.unlinked.wb, h.unlinked.intr.unlink _⟩, rfl⟩
      refine h.congr ?_ (unlinked_setDescq hx.1 _) rfl (calls_step h.calls ?_)
      · show (((s.dev.intrUnlink id).setDescq id _).descq id).attach = _
        rw [setDescq_self]
        show (stopRelease ((s.dev.intrUnlink id).descq id) ctxCleared).attach = _
        rw [hx.2]
        exact attach_freeResource (qdmaDescqContextClear (s.dev.descq id) ctxCleared)
      · rintro call ⟨⟩
        trivial
  | offline =>
      refine h.congr ?_ (unlinked_setDescq h.unlinked _) rfl (calls_end h.calls)
      show ((s.dev.setDescq id _).descq id).attach = _
      rw [setDescq_self, h.attach]
      show (false, (s.dev.descq id).wrkthp, (s.dev.descq id).wbthp) = _
      rw [hrq, hwb]

theorem SameUp.attach {d d' : Descq} (h : SameUp d d') : d'.attach = d.attach :=
  attach_of_life h.life

/-- A queue that is on no list is passed over by no thread. -/
theorem Down.not_listed {s : ServeSys} {id : ℕ} (h : Down s id) :
    (∀ i, id ∉ (s.dev.wrk i).workList) ∧ (∀ j, id ∉ (s.dev.wb j).workList) ∧
      ∀ v, id ∉ s.dev.intrList v :=
  ⟨h.unlinked.wrk.not_mem, h.unlinked.wb.not_mem, h.unlinked.intr.not_mem⟩

/-- A pass over a queue that has its rings. -/
theorem ServeInv.pass {s : ServeSys} {id : ℕ} (h : ServeInv s id) {d : Descq}
    (hr : (s.dev.descq id).HasRings) (hd : SameUp (s.dev.descq id) d) :
    ServeInv (s.pass id d) id := by
  have hpasses : (s.pass id d).badPass = false := by
    show (s.badPass || !decide (s.dev.descq id).HasRings) = false
    rw [h.passes, decide_eq_true hr]
    rfl
  refine ⟨?_, h.handed, hpasses⟩
  rcases h.queue with hup | hdown
  · exact .inl (hup.pass hd).1
  · refine .inr (hdown.congr ?_ (unlinked_setDescq hdown.unlinked _) rfl hdown.calls)
    show ((s.dev.setDescq id d).descq id).attach = _
    rw [setDescq_self]
    exact hd.attach

/-- The next step of a call. -/
theorem ServeInv.go {s : ServeSys} {id k : ℕ} (h : ServeInv s id) {call : DescqCall}
    (hcall : s.calls k = some call) (hl : ServeLegal s id (.go k)) :
    ServeInv (s.step id (.go k)) id := by
  have hpasses : (s.step id (.go k)).badPass = false := by
    rw [step_call hcall]
    exact h.passes
  have hhanded : (∀ req, call ≠ .submit req .wake) → (s.step id (.go k)).badWake = false := by
    intro hne
    rw [step_call hcall]
    show s.badWakeAfter id call = false
    unfold ServeSys.badWakeAfter
    split
    · exact absurd rfl (hne _)
    · exact h.handed
  rcases h.queue with hup | hdown
  · cases call with
    | start env pc => exact ⟨.inl (hup.start hcall hl), hhanded nofun, hpasses⟩
    | stop ctxCleared pc =>
        have hearly := hup.calls k _ hcall
        unfold ServeLegal at hl
        simp only [hcall] at hl
        cases pc with
        | detach => exact absurd (hup.online.symm.trans hl) (by decide)
        | release | offline => exact False.elim hearly
    | submit req pc =>
        obtain ⟨hup', hwake⟩ := hup.submit hcall
        exact ⟨.inl hup', hwake.trans h.handed, hpasses⟩
  · cases call with
    | start env pc => exact ⟨.inr (hdown.start hcall hl), hhanded nofun, hpasses⟩
    | stop ctxCleared pc => exact ⟨.inr (hdown.stop hcall), hhanded nofun, hpasses⟩
    | submit req pc =>
        obtain ⟨hdown', hwake⟩ := hdown.submit hcall
        exact ⟨.inr hdown', hwake.trans h.handed, hpasses⟩

/-- A call begins. -/
theorem ServeInv.enter {s : ServeSys} {id : ℕ} (h : ServeInv s id) (k : ℕ) (e : ServeEnter) :
    ServeInv (s.step id (.enter k e)) id := by
  unfold ServeSys.step
  simp only
  split_ifs
  · exact h
  · refine ⟨?_, h.handed, h.passes⟩
    rcases h.queue with hup | hdown
    · refine .inl (hup.congr (.refl _) ⟨rfl, rfl, rfl, rfl⟩ (calls_step hup.calls ?_))
      rintro call ⟨⟩
      cases e <;> trivial
    · refine .inr (hdown.congr rfl hdown.unlinked rfl (calls_step hdown.calls ?_))
      rintro call ⟨⟩
      cases e with
      | start | stop => trivial
      | submit req mapped =>
          unfold ServeEnter.call
          simp only
          split_ifs <;> trivial

/-- **A legal step keeps the invariant.** -/
theorem ServeInv.step {s : ServeSys} {id : ℕ} (h : ServeInv s id) {e : ServeStep}
    (hl : ServeLegal s id e) : ServeInv (s.step id e) id := by
  cases e with
  | enter k e => exact h.enter k e
  | go k =>
      cases hcall : s.calls k with
      | none =>
          unfold ServeSys.step
          simp only [hcall]
          exact h
      | some call => exact h.go hcall hl
  | worker i =>
      unfold ServeSys.step
      simp only
      split_ifs with hmem
      · rcases h.queue with hup | hdown
        · exact h.pass hup.rings (sameUp_worker _)
        · -- a queue that is down is on no list
          exact absurd hmem (hdown.not_listed.1 i)
      · exact h
  | cmpl j fill =>
      unfold ServeSys.step
      simp only
      split_ifs with hmem
      · rcases h.queue with hup | hdown
        · exact h.pass hup.rings (sameUp_service _ _ _)
        · exact absurd hmem (hdown.not_listed.2.1 j)
      · exact h
  | irq =>
      unfold ServeSys.step
      simp only
      split_ifs with hmem
      · refine ⟨?_, h.handed, h.passes⟩
        rcases h.queue with hup | hdown
        · exact .inl (hup.congr (.refl _) ⟨rfl, rfl, rfl, rfl⟩ hup.calls)
        · exact absurd hmem (hdown.not_listed.2.2 _)
      · exact h
  | work fill =>
      unfold ServeSys.step
      simp only
      split_ifs with hwork
      · rcases h.queue with hup | hdown
        · have hdone : ServeInv { s with work := false } id :=
            ⟨.inl (hup.congr (.refl _) ⟨rfl, rfl, rfl, rfl⟩ hup.calls), h.handed, h.passes⟩
          exact hdone.pass hup.rings (sameUp_service _ _ _)
        · exact absurd (hdown.work.symm.trans hwork) Bool.false_ne_true
      · exact h
  | service budget fill => exact h.pass hl (sameUp_service _ _ _)
  | device wbCidx mem wbPidx page =>
      have hsame := sameUp_device (s.dev.descq id) wbCidx mem wbPidx page
      refine ⟨?_, h.handed, h.passes⟩
      rcases h.queue with hup | hdown
      · refine .inl (hup.congr ?_ ⟨rfl, rfl, rfl, rfl⟩ hup.calls)
        show SameUp _ ((s.dev.setDescq id _).descq id)
        rw [setDescq_self]
        exact hsame
      · refine .inr (hdown.congr ?_ (unlinked_setDescq hdown.unlinked _) rfl hdown.calls)
        show ((s.dev.setDescq id _).descq id).attach = _
        rw [setDescq_self]
        exact hsame.attach

/-! ## The steps that break the law -/

/-- A queue without its thread is not served when it is online. -/
theorem not_served {s : ServeSys} {id : ℕ} (hon : (s.dev.descq id).online = true)
    (hrq : (s.dev.descq id).wrkthp = none) : ¬ ServedInv s id := by
  intro h
  have hworker := (h.online hon).2
  unfold QdmaDev.hasWorker at hworker
  rw [hrq] at hworker
  exact Bool.false_ne_true hworker

/-- **A step that is not legal breaks the law.** -/
theorem ServeInv.broken {s : ServeSys} {id : ℕ} (h : ServeInv s id) {e : ServeStep}
    (hl : ¬ ServeLegal s id e) : ¬ ServedInv (s.step id e) id := by
  cases e with
  | go k =>
      unfold ServeLegal at hl
      cases hcall : s.calls k with
      | none =>
          simp only [hcall] at hl
          exact absurd trivial hl
      | some call =>
          simp only [hcall] at hl
          rw [step_call hcall]
          cases call with
          | submit req pc => exact absurd trivial hl
          | start env pc =>
              cases pc with
              | config =>
                  -- the rings of a running queue are freed
                  obtain ⟨hcsr, hon⟩ := Classical.not_imp.mp hl
                  replace hon := Bool.eq_true_of_not_eq_false hon
                  intro hserved
                  have hnew : (s.dev.descqStep id k (.start env .config)).1.descq id
                      = startFreeResource (s.dev.descq id) := by
                    show (s.dev.setDescq id (startConfig (s.dev.descq id) env.csr).1).descq id = _
                    rw [hcsr]
                    exact setDescq_self ..
                  have honline := hserved.online
                  simp only [hnew] at honline
                  have hkept : (startFreeResource (s.dev.descq id)).online = true :=
                    (congrArg Prod.fst (attach_freeResource (s.dev.descq id))).trans hon
                  have hfree : (startFreeResource (s.dev.descq id)).desc.alloc = false := by
                    unfold startFreeResource qdmaDescqFreeResource
                    cases hd : (s.dev.descq id).desc.alloc <;>
                      cases hw : (s.dev.descq id).descWrb.alloc <;>
                        simp [hd, hw, descqFlqFreeResource]
                  exact absurd ((honline hkept).1.1.symm.trans hfree) (by decide)
              | progHw rv =>
                  -- the queue is online before it is linked
                  obtain ⟨hrv, hctx⟩ := Classical.not_imp.mp hl
                  have hdown : Down s id := by
                    rcases h.queue with hup | hdown
                    · exact False.elim (hup.calls k _ hcall)
                    · exact hdown
                  have hattach : ((s.dev.descqStep id k (.start env (.progHw rv))).1.descq id).attach
                      = (true, none, none) := by
                    show ((s.dev.setDescq id (startProgHw (s.dev.descq id) rv env).1).descq id).attach
                      = _
                    rw [setDescq_self, attach_progHw_ok hrv (not_not.mp hctx)]
                    exact congrArg (fun p : Bool × Option ℕ × Option ℕ => (true, p.2)) hdown.attach
                  exact not_served (congrArg Prod.fst hattach) (congrArg (·.2.1) hattach)
              | check | alloc | link | assign | intr => exact absurd trivial hl
          | stop ctxCleared pc =>
              cases pc with
              | detach =>
                  -- the thread is taken from a queue that is online
                  have hnew : (s.dev.descqStep id k (.stop ctxCleared .detach)).1.descq id
                      = { s.dev.descq id with wrkthp := none, wbthp := none } := setDescq_self ..
                  refine not_served ?_ ?_
                  · show ((s.dev.descqStep id k (.stop ctxCleared .detach)).1.descq id).online = true
                    rw [hnew]
                    exact Bool.eq_true_of_not_eq_false hl
                  · show ((s.dev.descqStep id k (.stop ctxCleared .detach)).1.descq id).wrkthp = none
                    rw [hnew]
              | release | offline => exact absurd trivial hl
  | service budget fill =>
      intro hserved
      have hpass : (s.badPass || !decide (s.dev.descq id).HasRings) = false := hserved.passes
      rw [decide_eq_false (show ¬ (s.dev.descq id).HasRings from hl), Bool.not_false,
        Bool.or_true] at hpass
      exact absurd hpass (by decide)
  | enter | worker | cmpl | irq | work | device => exact absurd trivial hl

/-! ## Whole runs -/

/-- A queue at rest. -/
theorem Settled.serveInv {s : ServeSys} {id : ℕ} (h : Settled s id) : ServeInv s id := by
  have hcalls : ∀ {P : DescqCall → Prop}, ∀ k call, s.calls k = some call → P call := by
    intro P k call hcall
    exact absurd ((h.calls k).symm.trans hcall) nofun
  refine ⟨?_, h.badWake, h.badPass⟩
  rcases h.queue with ⟨hidle, hu⟩ | ⟨hup, hl⟩
  · refine .inr ⟨?_, hu, h.work, hcalls⟩
    unfold Descq.attach
    rw [hidle.online, hidle.wrkthp, hidle.wbthp]
  · refine .inl ⟨hup.online, ?_, ?_, ?_, hcalls⟩
    · have hrings := hup.rings
      unfold Descq.AllRings Descq.rings at hrings
      simp only [Prod.mk.injEq] at hrings
      obtain ⟨h₁, h₂, h₃⟩ := hrings
      exact ⟨h₁, fun hrx => ⟨h₂.trans hrx, h₃.trans hrx⟩⟩
    · obtain ⟨i, -, hthp, hon⟩ := hl.wrk
      unfold QdmaDev.hasWorker
      rw [hthp]
      exact decide_eq_true hon.mem
    · unfold QdmaDev.hasCmpl
      by_cases hv : s.dev.numVecs = 0
      · obtain ⟨-, j, -, hthp, hon⟩ := hl.polled hv
        rw [hthp]
        exact decide_eq_true hon.mem
      · rw [(hl.vector hv).2.1]
        exact decide_eq_true hv

/-- **When online means served.**  From a queue at rest, in every interleaving of calls, passes,
interrupts and device writes: the queue has its rings and its thread in every state in which it is
online, every request accepted is seen by a thread and every pass finds the rings, exactly if all
steps are legal. -/
theorem online_served {s₀ : ServeSys} {id : ℕ} (h0 : Settled s₀ id) (steps : List ServeStep) :
    (∀ pre post, steps = pre ++ post → ServedInv (pre.foldl (ServeSys.step id) s₀) id) ↔
      ∀ pre e post, steps = pre ++ e :: post →
        ServeLegal (pre.foldl (ServeSys.step id) s₀) id e := by
  refine lasts_iff (I := fun s => ServeInv s id) (P := fun _ => True) h0.serveInv
    (fun _ h => h.served) (fun _ _ h _ hl => h.step hl) ?_ (fun _ _ => trivial)
  intro s e h _ hserved
  by_contra hl
  exact h.broken hl hserved

/-! ## A start that is not served -/

/-- A device with an H2C queue that is added, in polled mode. -/
def addedDev : QdmaDev := (pairDev 0).setDescq 0 { enabled := true }

theorem addedDev_settled : Settled { dev := addedDev } 0 :=
  ⟨.inl ⟨⟨rfl, rfl, rfl, rfl, rfl, rfl⟩, fun _ => rfl, fun _ => rfl, fun _ => rfl⟩, fun _ => rfl,
    rfl, rfl, rfl⟩

/-- The same with the queue started. -/
def runningDev : QdmaDev := (addedDev.queueStart 0 workingStart).1

theorem runningDev_settled : Settled { dev := runningDev } 0 :=
  ⟨(addedDev_settled.queue.start Nat.one_pos fun _ => workingStart_ok rfl).queue, fun _ => rfl,
    rfl, rfl, rfl⟩

/-- A write from its submission to the end of its wait. -/
def servedWrite : List ServeStep :=
  [.enter 0 (.submit (writeReq 8) true), .go 0, .go 0, .worker 0,
    .device 1 (fun _ => 0) 0 (fun _ _ => 0), .cmpl 0 (fun _ => .noMem), .go 0]

/-- On a queue that runs a write is accepted, carried out and handed back. -/
theorem online_served_write :
    ServedInv (servedWrite.foldl (ServeSys.step 0) { dev := runningDev }) 0 ∧
      ((servedWrite.foldl (ServeSys.step 0) { dev := runningDev }).dev.descq 0).finished.length
        = 1 := by
  have hrun : Run (ServeSys.step 0) (fun s e => ServeLegal s 0 e) { dev := runningDev }
      servedWrite (servedWrite.foldl (ServeSys.step 0) { dev := runningDev }) :=
    ((((((Run.nil.snoc trivial).snoc trivial).snoc trivial).snoc trivial).snoc trivial).snoc
      trivial).snoc trivial
  exact ⟨(online_served runningDev_settled servedWrite).mpr (fun _ _ _ heq => (hrun.cut heq).2) _
    [] (List.append_nil _).symm, by decide +kernel⟩

/-- An empty write. -/
def emptyWrite : Request := ⟨true, 0, 0, true, true, [], by decide, by decide⟩

/-- The start up to `online`, and a submission that comes in between. -/
def earlySubmit : List ServeStep :=
  [.enter 0 (.start workingStart), .go 0, .go 0, .go 0, .go 0,
    .enter 1 (.submit emptyWrite true), .go 1, .go 1]

/-- **A queue online without a thread.**  After the fourth step of its start the queue is online,
and on no work list; the request of a caller that sees it online is accepted, and no thread is
there to be woken. -/
theorem online_unserved :
    Settled { dev := addedDev } 0 ∧
      ¬ (∀ pre post, earlySubmit = pre ++ post →
        ServedInv (pre.foldl (ServeSys.step 0) { dev := addedDev }) 0) ∧
      (earlySubmit.foldl (ServeSys.step 0) { dev := addedDev }).badWake = true := by
  refine ⟨addedDev_settled, ?_, rfl⟩
  intro h
  have hlast := (h earlySubmit [] rfl).handed
  exact Bool.noConfusion hlast

/-! ## A call alone -/

theorem go_done {s : ServeSys} {id k : ℕ} (h : s.calls k = none) (n : ℕ) :
    (List.replicate n (.go k)).foldl (ServeSys.step id) s = s := by
  have hstep : s.step id (.go k) = s := by
    unfold ServeSys.step
    simp only [h]
  induction n with
  | zero => rfl
  | succ n ih =>
      rw [List.replicate_succ, List.foldl_cons, hstep]
      exact ih

/-- The last state given to a queue counts. -/
theorem setDescq_setDescq (x : QdmaDev) (id : ℕ) (d d' : Descq) :
    (x.setDescq id d).setDescq id d' = x.setDescq id d' := by
  unfold QdmaDev.setDescq
  rw [Function.update_idem]

/-- Call `k` is alone from `s` on and returns after `n` steps at most, when the device is `y`. -/
def Alone (id k n : ℕ) (s : ServeSys) (y : QdmaDev) : Prop :=
  ((List.replicate n (.go k)).foldl (ServeSys.step id) s).dev = y ∧
    ((List.replicate n (.go k)).foldl (ServeSys.step id) s).calls k = none

theorem Alone.next {id k n : ℕ} {s : ServeSys} {y : QdmaDev} {call : DescqCall}
    (hcall : s.calls k = some call)
    (h : ∀ s' : ServeSys, s'.dev = (s.dev.descqStep id k call).1 →
      s'.calls k = (s.dev.descqStep id k call).2 → Alone id k n s' y) : Alone id k (n + 1) s y := by
  unfold Alone
  rw [List.replicate_succ, List.foldl_cons, step_call hcall]
  exact h _ rfl (Function.update_self ..)

theorem Alone.done {id k n : ℕ} {s : ServeSys} {y : QdmaDev} (hcall : s.calls k = none)
    (hdev : s.dev = y) : Alone id k n s y := by
  unfold Alone
  rw [go_done hcall]
  exact ⟨hdev, hcall⟩

/-- The last steps of a start. -/
theorem startFinish_alone {s : ServeSys} {id k : ℕ} {env : StartEnv} {rv : ℤ}
    (hcall : s.calls k = some (.start env (.progHw rv))) :
    Alone id k 4 s (s.dev.startFinish id rv env).1 := by
  refine .next hcall (fun s₁ hdev₁ hcall₁ => ?_)
  unfold QdmaDev.descqStep QdmaDev.startStep at hdev₁ hcall₁
  simp only at hdev₁ hcall₁
  unfold QdmaDev.startFinish
  simp only
  by_cases hrv : (startProgHw (s.dev.descq id) rv env).2 < 0
  · rw [if_pos hrv] at hcall₁ ⊢
    exact .done hcall₁ hdev₁
  rw [if_neg hrv] at hcall₁ ⊢
  rw [← hdev₁]
  refine .next hcall₁ (fun s₂ hdev₂ hcall₂ => ?_)
  refine .next hcall₂ (fun s₃ hdev₃ hcall₃ => ?_)
  refine .next hcall₃ (fun s₄ hdev₄ hcall₄ => ?_)
  refine .done hcall₄ ?_
  rw [hdev₄]
  show s₃.dev.intrLink id = ((s₁.dev.threadLink id).threadAssign id _ _).intrLink id
  rw [hdev₃]
  show (s₂.dev.threadAssign id _ _).intrLink id = _
  rw [hdev₂]
  rfl

/-- A call that finds its queue. -/
theorem enter_call {s : ServeSys} {id k : ℕ} (e : ServeEnter) (hfree : s.calls k = none)
    (hid : s.dev.Has id) :
    (s.step id (.enter k e)).calls k = some (e.call (s.dev.descq id)) ∧
      (s.step id (.enter k e)).dev = s.dev := by
  have hno : ¬ ((s.calls k).isSome = true ∨ ¬ s.dev.Has id) := by
    rw [hfree]
    rintro (h | h)
    · exact Bool.false_ne_true h
    · exact h hid
  unfold ServeSys.step
  simp only
  rw [if_neg hno]
  exact ⟨Function.update_self .., rfl⟩

/-- **A start alone** does what the model of the device says. -/
theorem start_alone {s : ServeSys} {id k : ℕ} (env : StartEnv) (hfree : s.calls k = none)
    (hid : s.dev.Has id) :
    Alone id k 7 (s.step id (.enter k (.start env))) (s.dev.queueStart id env).1 := by
  obtain ⟨hcall, hdev⟩ := enter_call (.start env) hfree hid
  replace hcall : (s.step id (.enter k (.start env))).calls k = some (.start env .config) := hcall
  generalize s.step id (.enter k (.start env)) = s₀ at hcall hdev
  rw [← hdev] at hid ⊢
  unfold QdmaDev.queueStart
  rw [if_pos hid]
  simp only
  refine .next hcall (fun s₁ hdev₁ hcall₁ => ?_)
  unfold QdmaDev.descqStep QdmaDev.startStep at hdev₁ hcall₁
  simp only at hdev₁ hcall₁
  by_cases hconfig : (startConfig (s₀.dev.descq id) env.csr).2 < 0
  · rw [if_pos hconfig] at hcall₁ ⊢
    exact .done hcall₁ hdev₁
  rw [if_neg hconfig] at hcall₁ ⊢
  refine .next hcall₁ (fun s₂ hdev₂ hcall₂ => ?_)
  unfold QdmaDev.descqStep QdmaDev.startStep at hdev₂ hcall₂
  simp only [hdev₁, setDescq_self, setDescq_setDescq] at hdev₂ hcall₂
  generalize (startConfig (s₀.dev.descq id) env.csr).1 = d₁ at hdev₂ hcall₂ ⊢
  by_cases hcheck : (startCheck d₁).2 < 0
  · rw [if_pos hcheck] at hcall₂ ⊢
    exact .done hcall₂ hdev₂
  rw [if_neg hcheck] at hcall₂ ⊢
  refine .next hcall₂ (fun s₃ hdev₃ hcall₃ => ?_)
  unfold QdmaDev.descqStep QdmaDev.startStep at hdev₃ hcall₃
  simp only [hdev₂, setDescq_self, setDescq_setDescq] at hdev₃ hcall₃
  have hvec : (s₀.dev.setDescq id (startCheck d₁).1).pickVec = s₀.dev.pickVec := rfl
  rw [hvec] at hdev₃ hcall₃
  rw [← hdev₃]
  exact startFinish_alone hcall₃

/-- **A stop alone**, too. -/
theorem stop_alone {s : ServeSys} {id k : ℕ} (ctxCleared : Bool) (hfree : s.calls k = none)
    (hid : s.dev.Has id) :
    Alone id k 3 (s.step id (.enter k (.stop ctxCleared))) (s.dev.queueStop id ctxCleared) := by
  obtain ⟨hcall, hdev⟩ := enter_call (.stop ctxCleared) hfree hid
  replace hcall : (s.step id (.enter k (.stop ctxCleared))).calls k
    = some (.stop ctxCleared .detach) := hcall
  generalize s.step id (.enter k (.stop ctxCleared)) = s₀ at hcall hdev
  rw [← hdev] at hid ⊢
  unfold QdmaDev.queueStop
  rw [if_pos hid]
  refine .next hcall (fun s₁ hdev₁ hcall₁ => ?_)
  refine .next hcall₁ (fun s₂ hdev₂ hcall₂ => ?_)
  refine .next hcall₂ (fun s₃ hdev₃ hcall₃ => ?_)
  refine .done hcall₃ ?_
  rw [hdev₃]
  show s₂.dev.setDescq id (stopOffline (s₂.dev.descq id)) = _
  rw [hdev₂]
  show (QdmaDev.setDescq _ id _).setDescq id (stopOffline ((QdmaDev.setDescq _ id _).descq id)) = _
  rw [setDescq_self, setDescq_setDescq, hdev₁]
  rfl

end Qdma
