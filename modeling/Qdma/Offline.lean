/-
# The data path of a queue that is not online

What the entry points of the data path touch of the rings, the completion status and the free
list of a queue (`Descq.touches`), and when a call on a queue that is not online touches
nothing and changes nothing.

A queue that is not online has no rings (`queueOp_offline`), whatever was done to it before.
The calls that test `online` before anything else are safe then.  The others rely on something
that a stop does not reset: a read on the producer index, a service call on the error flag, on
the request lists or on the consumer index.
-/
import Qdma.Device
import Qdma.Restart
import Qdma.Upper

namespace Qdma

open Exec

/-! ## Accesses -/

/-- An access to a structure of a queue, by index; a doorbell hands an index of a ring to the
device. -/
inductive Access where
  /-- A slot of the descriptor ring. -/
  | desc (i : ℕ)
  /-- The writeback status behind it. -/
  | descWb
  /-- The entry of the completion ring at a byte offset. -/
  | wrb (o : ℕ)
  /-- The status behind the completion ring. -/
  | wrbWb
  | sdesc (i : ℕ)
  | sdescInfo (i : ℕ)
  | pidxBell (i : ℕ)
  | wrbBell (i : ℕ)
  deriving DecidableEq

/-- The structure is allocated and the index in range. -/
def Descq.Allows (d : Descq) : Access → Prop
  | .desc i | .pidxBell i => d.desc.alloc = true ∧ i < d.conf.rngsz
  | .descWb => d.desc.alloc = true
  | .wrb o => d.descWrb.alloc = true ∧ o + d.wbEntryLen ≤ d.conf.rngszWrb * d.wbEntryLen
  | .wrbWb => d.descWrb.alloc = true
  | .wrbBell i => d.descWrb.alloc = true ∧ i < d.conf.rngszWrb
  | .sdesc i | .sdescInfo i => d.flq.sdescAlloc = true ∧ i < d.flq.size

instance (d : Descq) (a : Access) : Decidable (d.Allows a) := by
  cases a <;> unfold Descq.Allows <;> infer_instance

/-- `qdma_flq_refill`. -/
def refillTouches (fill : ℕ → FillOutcome) (recycle : Bool) : ℕ → ℕ → Descq → List Access
  | 0, _, _ => []
  | count + 1, idx, d =>
      let idx := if idx = d.flq.size then 0 else idx
      if recycle then
        .sdesc idx :: .sdescInfo idx ::
          refillTouches fill recycle count (idx + 1) ((d.setFlq (d.flq.recycle idx)).refilled idx)
      else
        -- the descriptor is written if there is something to unmap or something new to point to
        let mapped := (d.flq.sdesc idx).dmaAddr
        let (d, rv) := flqFillOne (flqUnmapOne d idx) idx (fill idx)
        .sdesc idx :: (if mapped ≠ 0 ∨ 0 ≤ rv then [.desc idx] else []) ++
          if rv < 0 then []
          else .sdescInfo idx :: refillTouches fill recycle count (idx + 1) (d.refilled idx)

/-- The loop of `descq_st_c2h_read`. -/
def readLoopTouches : ℕ → Rd → List Access
  | 0, _ => []
  | n + 1, r =>
      if r.tsg.isEmpty then []
      else
        let fsg := r.d.flq.sdesc r.pidx
        let r := copyOut fsg.page r.tsg fsg.len { r with foff := 0 }
        .sdesc r.pidx ::
          if r.foff = fsg.len then .sdescInfo r.pidx :: readLoopTouches n r.nextBuf else []

/-- `ring_idx_delta(descq->pidx, flq->pidx_pend, flq->size)`: the buffers not yet read. -/
def Descq.unreadBufs (d : Descq) : ℕ := ringIdxDelta d.pidx d.flq.pidxPend d.flq.size

/-- The locals of `descq_st_c2h_read` when its loop starts. -/
def readStart (d : Descq) (cb : SgtReqCb) : Rd :=
  { d := d, pidx := d.flq.pidxPend, tsg := cb.req.sgl.drop cb.sgIdx, tsgoff := cb.sgOffset,
    j := cb.sgIdx }

/-- `descq_st_c2h_read`. -/
def readTouches (d : Descq) (cb : SgtReqCb) (updatePidx refill : Bool) : List Access :=
  if d.unreadBufs = 0 then []
  else if cb.sgIdx ≠ 0 ∧ cb.req.sgl.drop cb.sgIdx = [] then []
  else
    let r := readLoop d.unreadBufs (readStart d cb)
    let pend := ringIdxIncr r.d.flq.pidxPend r.i r.d.flq.size
    readLoopTouches d.unreadBufs (readStart d cb) ++
      (if refill && r.i ≠ 0 then refillTouches (fun _ => .noMem) true r.i r.d.flq.pidxPend r.d
        else []) ++
      (if r.foff ≠ 0 then [.sdesc r.pidx] else []) ++
      if updatePidx then [.pidxBell (ringIdxDecr pend 1 r.d.flq.size), .wrbBell r.d.cidxWrbPend]
      else []

/-- `qdma_c2h_packets_proc_dflt`. -/
def packetsTouches : List SgtReqCb → Descq → List Access
  | [], _ => []
  | cb :: cbs, d =>
      if cb.left = 0 then []
      else
        let touched := readTouches d cb false false
        let (d, cb, rv) := descqStC2hRead d cb false false
        let d := d.setCb cb
        let d := if rv < 0 then qdmaSgtReqDone d cb rv else d
        touched ++ if cb.left = 0 then packetsTouches cbs (qdmaSgtReqDone d cb 0) else []

/-- `rcv_pkt`; a packet handler is given the buffers but not run here. -/
def rcvPktTouches (d : Descq) (cmpl : CmplInfo) : List Access :=
  let nr := flNr d.flq.pgShift cmpl.len
  let last := ringIdxIncr cmpl.pidx (u32Sub nr 1) d.conf.rngsz
  let lastLen := cmpl.len &&& u32Sub (1 <<< d.flq.pgShift) 1
  (if cmpl.len = 0 ∨ lastLen ≠ 0 then [.sdesc last] else []) ++
    if d.conf.fpDescqC2hPacket.isSome then []
    else (d.flq.chain nr cmpl.pidx).map Access.sdescInfo ++
      [.sdescInfo cmpl.pidx, .sdescInfo last]

/-- The loop of `descq_process_completion_st_c2h`. -/
def procLoopTouches : ℕ → Proc → List Access
  | 0, _ => []
  | n + 1, p =>
      let (d, cmpl, rv) := parseCmplEntry p.d
      .wrb d.descWrbCur ::
        if rv < 0 then []
        else if cmpl.color ≠ d.color then []
        else
          let touched := if cmpl.descUsed then rcvPktTouches d (cmpl.withPidx p.pidx) else []
          let (d, cmpl, rv) := rcvEntry d (cmpl.withPidx p.pidx)
          touched ++
            if rv < 0 then []
            else procLoopTouches n { d := wrbNext d, pidx := cmpl.pidx, procCnt := p.procCnt + 1 }

/-- `if (proc_cnt) { .. }` of `descq_process_completion_st_c2h`. -/
def procEndTouches (p : Proc) (pidxWrb pidxPend : ℕ) (fill : ℕ → FillOutcome) : List Access :=
  if p.procCnt ≠ 0 then
    let d := { p.d with pidxWrb := pidxWrb, pidx := p.pidx }
    let touched := if d.conf.fpDescqC2hPacket.isNone then packetsTouches d.pendList d else []
    let d := if d.conf.fpDescqC2hPacket.isNone then qdmaC2hPacketsProcDflt d else d
    let cnt := ringIdxDelta d.flq.pidxPend pidxPend d.flq.size
    touched ++
      (if d.flq.pidxPend ≠ pidxPend then
        refillTouches fill d.conf.fpDescqC2hPacket.isNone cnt pidxPend d ++
          [.pidxBell (ringIdxDecr d.flq.pidxPend 1 d.flq.size)]
      else []) ++ [.wrbBell (procRefill d pidxPend fill).cidxWrbPend]
  else []

/-- `descq_process_completion_st_c2h`. -/
def processTouches (d : Descq) (budget : ℤ) (fill : ℕ → FillOutcome) : List Access :=
  if d.err then []
  else if d.conf.fpDescqC2hPacket.isNone && d.pendList.isEmpty && d.workList.isEmpty then []
  else
    let pend := ringIdxDelta d.descWrb.wbPidx d.cidxWrb d.conf.rngszWrb
    .wrbWb ::
      if pend = 0 then []
      else
        let p := procLoop (procBudget budget pend) { d := d, pidx := d.pidx }
        procLoopTouches (procBudget budget pend) { d := d, pidx := d.pidx } ++
          match p.ret with
          | some _ => []
          | none => procEndTouches p d.descWrb.wbPidx d.flq.pidxPend fill

/-- `descq_mm_n_h2c_wb`. -/
def wbTouches (d : Descq) : List Access :=
  if d.pidx = d.cidx then []
  else .descWb :: if d.desc.wbCidx = d.cidx then [] else [.pidxBell d.pidx]

/-! ## The entry points -/

/-- `qdma_queue_packet_write`; `mapped` is the answer of `sgl_map`. -/
def qdmaQueuePacketWrite (d : Descq) (id : ℕ) (req : Request) (mapped : Bool) : Descq × ℤ :=
  if !d.conf.st || d.conf.c2h then (d, einval)
  else if !req.dmaMapped && !mapped then (d, eio)
  else if !d.online then (d, einval)
  else (d.enqueue (req.newCb id), req.count)

/-- A call of the data path on a queue that is there. -/
inductive DataCall where
  | submit (id : ℕ) (req : Request) (mapped : Bool)
  | packetRead (id : ℕ) (req : Request)
  | packetWrite (id : ℕ) (req : Request) (mapped : Bool)
  | service (budget : ℤ) (fill : ℕ → FillOutcome)

/-- `qdma_request_submit` up to its wait; `none` means that the request is queued. -/
def requestSubmit (d : Descq) (id : ℕ) (req : Request) (mapped : Bool) : Descq × Option ℤ :=
  if d.isRx then
    if req.write then (d, some einval)
    else
      let (d, cb) := submitStC2hRead d id req
      if cb.left = 0 then (d, some req.count) else submitStC2hPend d cb
  else qdmaRequestSubmit d id req mapped

/-- The queue after the call, and what it returns, if it returns at once and not nothing. -/
def Descq.dataCall (d : Descq) : DataCall → Descq × Option ℤ
  | .submit id req mapped => requestSubmit d id req mapped
  | .packetRead id req => ((qdmaQueuePacketRead d id req).1, (qdmaQueuePacketRead d id req).2)
  | .packetWrite id req mapped =>
      ((qdmaQueuePacketWrite d id req mapped).1, (qdmaQueuePacketWrite d id req mapped).2)
  | .service budget fill => (qdmaDescqServiceWb d budget fill, none)

/-- What the call touches, in the order of the code. -/
def Descq.touches (d : Descq) : DataCall → List Access
  | .submit id req _ =>
      if d.isRx && !req.write then
        let cb := (submitStC2hRead d id req).2
        let d' := (submitStC2hRead d id req).1
        readTouches d (req.newC2hCb id) true true ++
          if cb.left ≠ 0 ∧ d'.online = true then [.wrbBell d'.cidxWrbPend] else []
      else []
  | .packetRead id req => if d.isRx then readTouches d { id := id, req := req } true true else []
  | .packetWrite _ _ _ => []
  | .service budget fill => if d.isRx then processTouches d budget fill else wbTouches d

/-- The call is harmless: it stays inside what is allocated, it returns an error or does
nothing, and indices and lists are as before. -/
structure Harmless (d : Descq) (c : DataCall) : Prop where
  inside : ∀ a ∈ d.touches c, d.Allows a
  refused : (d.dataCall c).1 = d ∨ ∃ rv, (d.dataCall c).2 = some rv ∧ rv < 0
  pidx : (d.dataCall c).1.pidx = d.pidx
  cidx : (d.dataCall c).1.cidx = d.cidx
  avail : (d.dataCall c).1.avail = d.avail
  workList : (d.dataCall c).1.workList = d.workList
  pendList : (d.dataCall c).1.pendList = d.pendList

/-- What a call has to find on a queue that is not online. -/
def Guarded (d : Descq) : DataCall → Prop
  | .submit _ req _ => d.isRx = true → req.write = false → d.unreadBufs = 0
  | .packetRead _ _ => d.isRx = true → d.unreadBufs = 0
  | .packetWrite _ _ _ => True
  | .service _ _ =>
      if d.isRx then
        d.err = true ∨ d.conf.fpDescqC2hPacket = none ∧ d.pendList = [] ∧ d.workList = []
      else d.pidx = d.cidx

/-! ## What the guards do -/

/-- Without unread buffers a read is over at once. -/
theorem read_none {d : Descq} (h : d.unreadBufs = 0) (cb : SgtReqCb) (updatePidx refill : Bool) :
    descqStC2hRead d cb updatePidx refill = (d, cb, 0) ∧
      readTouches d cb updatePidx refill = [] :=
  ⟨if_pos h, if_pos h⟩

/-- With some it rings the doorbells at its end. -/
theorem read_some {d : Descq} (h : d.unreadBufs ≠ 0) (cb : SgtReqCb) (hidx : cb.sgIdx = 0)
    (refill : Bool) : ∃ i, Access.pidxBell i ∈ readTouches d cb true refill := by
  unfold readTouches
  rw [if_neg h, if_neg (fun hf => hf.1 hidx)]
  exact ⟨_, List.mem_append_right _ (.head _)⟩

/-- A call that is guarded is over before it touches anything. -/
theorem guarded_quiet {d : Descq} (hoff : d.online = false) {c : DataCall} (h : Guarded d c) :
    d.touches c = [] ∧ (d.dataCall c).1 = d := by
  cases c with
  | submit id req mapped =>
      show (if d.isRx && !req.write then _ else []) = [] ∧ (requestSubmit d id req mapped).1 = d
      unfold requestSubmit
      cases hrx : d.isRx with
      | false =>
          refine ⟨rfl, ?_⟩
          rw [if_neg Bool.false_ne_true]
          unfold qdmaRequestSubmit
          rw [hoff]
          split_ifs <;> first | rfl | contradiction
      | true =>
          cases hw : req.write with
          | true => exact ⟨rfl, rfl⟩
          | false =>
              -- the read finds no bytes, and the request is turned away
              have hread := (read_none (h hrx hw) (req.newC2hCb id) true true)
              have hsub : submitStC2hRead d id req = (d, req.newC2hCb id) := by
                unfold submitStC2hRead
                rw [hread.1]
              have hpend : (submitStC2hPend d (req.newC2hCb id)).1 = d := by
                unfold submitStC2hPend
                rw [hoff]
                rfl
              rw [hsub]
              simp only [Bool.not_false, Bool.and_self, if_true, Bool.false_eq_true, if_false]
              refine ⟨?_, ?_⟩
              · rw [hread.2, if_neg (fun hf => absurd (hoff.symm.trans hf.2) Bool.false_ne_true)]
                rfl
              · split_ifs
                · rfl
                · exact hpend
  | packetRead id req =>
      show (if d.isRx then _ else []) = [] ∧ (qdmaQueuePacketRead d id req).1 = d
      unfold qdmaQueuePacketRead
      rw [← Bool.not_and]
      show _ ∧ (if !d.isRx then (d, einval) else _).1 = d
      cases hrx : d.isRx with
      | false => exact ⟨rfl, rfl⟩
      | true =>
          obtain ⟨h1, h2⟩ := read_none (h hrx) { id := id, req := req } true true
          refine ⟨h2, ?_⟩
          rw [h1]
          rfl
  | packetWrite id req mapped =>
      refine ⟨rfl, ?_⟩
      show (qdmaQueuePacketWrite d id req mapped).1 = d
      unfold qdmaQueuePacketWrite
      rw [hoff]
      split_ifs <;> first | rfl | contradiction
  | service budget fill =>
      show (if d.isRx then processTouches d budget fill else wbTouches d) = [] ∧
        qdmaDescqServiceWb d budget fill = d
      unfold qdmaDescqServiceWb
      unfold Guarded at h
      cases hrx : d.isRx with
      | false =>
          rw [hrx, if_neg Bool.false_ne_true] at h
          exact ⟨if_pos h, if_pos h⟩
      | true =>
          rw [hrx, if_pos rfl] at h
          unfold processTouches descqProcessCompletionStC2h
          simp only [if_true]
          rcases h with herr | ⟨hfp, hp, hw⟩
          · rw [if_pos herr, if_pos herr]
            exact ⟨rfl, rfl⟩
          · rw [hfp, hp, hw]
            split_ifs <;> first | exact ⟨rfl, rfl⟩ | contradiction

/-- **On a queue without rings** any other call touches one. -/
theorem unguarded_touches {d : Descq} (hd : d.desc.alloc = false) (hw : d.descWrb.alloc = false)
    {c : DataCall} (h : ¬ Guarded d c) : ∃ a ∈ d.touches c, ¬ d.Allows a := by
  have hbell : ∀ i, ¬ d.Allows (.pidxBell i) :=
    fun i hf => Bool.false_ne_true (hd.symm.trans hf.1)
  cases c with
  | submit id req mapped =>
      obtain ⟨hrx, hwr, hne⟩ : d.isRx = true ∧ req.write = false ∧ d.unreadBufs ≠ 0 := by
        simpa only [Guarded, not_forall, exists_prop] using h
      obtain ⟨i, hi⟩ := read_some hne (req.newC2hCb id) rfl true
      refine ⟨_, ?_, hbell i⟩
      show _ ∈ if d.isRx && !req.write then _ else []
      rw [hrx, hwr]
      exact List.mem_append_left _ hi
  | packetRead id req =>
      obtain ⟨hrx, hne⟩ : d.isRx = true ∧ d.unreadBufs ≠ 0 := by
        simpa only [Guarded, not_forall, exists_prop] using h
      obtain ⟨i, hi⟩ := read_some hne { id := id, req := req } rfl true
      refine ⟨_, ?_, hbell i⟩
      show _ ∈ if d.isRx then _ else []
      rw [if_pos hrx]
      exact hi
  | packetWrite id req mapped => exact absurd trivial h
  | service budget fill =>
      show ∃ a ∈ if d.isRx then processTouches d budget fill else wbTouches d, ¬ d.Allows a
      unfold Guarded at h
      cases hrx : d.isRx with
      | false =>
          rw [hrx, if_neg Bool.false_ne_true] at h
          refine ⟨.descWb, ?_, fun hf => Bool.false_ne_true (hd.symm.trans hf)⟩
          unfold wbTouches
          rw [if_neg Bool.false_ne_true, if_neg h]
          exact .head _
      | true =>
          rw [hrx, if_pos rfl, not_or] at h
          -- the status entry of the completion ring is read, which is not there
          obtain ⟨herr, hlists⟩ := h
          have hbusy : ¬ (d.conf.fpDescqC2hPacket.isNone && d.pendList.isEmpty &&
              d.workList.isEmpty) = true := by
            intro hf
            simp only [Bool.and_eq_true, Option.isNone_iff_eq_none, List.isEmpty_iff] at hf
            exact hlists ⟨hf.1.1, hf.1.2, hf.2⟩
          refine ⟨.wrbWb, ?_, fun hf => Bool.false_ne_true (hw.symm.trans hf)⟩
          unfold processTouches
          rw [if_pos rfl, if_neg herr, if_neg hbusy]
          exact .head _

/-- **The calls that are harmless** on a queue without rings that is not online. -/
theorem harmless_iff {d : Descq} (hoff : d.online = false) (hd : d.desc.alloc = false)
    (hw : d.descWrb.alloc = false) (c : DataCall) : Harmless d c ↔ Guarded d c := by
  constructor
  · intro h
    by_contra hno
    obtain ⟨a, hmem, hbad⟩ := unguarded_touches hd hw hno
    exact hbad (h.inside a hmem)
  · intro h
    obtain ⟨h1, h2⟩ := guarded_quiet hoff h
    refine ⟨fun a ha => ?_, .inl h2, ?_, ?_, ?_, ?_, ?_⟩
    · rw [h1] at ha
      exact absurd ha List.not_mem_nil
    all_goals rw [h2]

/-! ## Runs -/

/-- One step in the life of a queue: of its data path, a start, a stop or a new configuration
(`QLabel`); a write; the queue is added, with its configuration unless
`qdma_device_prep_q_resource` fails; or it is removed. -/
inductive QueueOp where
  | sys (l : QLabel)
  | packetWrite (req : Request) (mapped : Bool)
  | add (qconf : Option QueueConf)
  | remove

/-- `qdma_queue_add`, on the queue itself. -/
def descqAdd (d : Descq) (qconf : Option QueueConf) : Descq :=
  if d.enabled then d
  else
    match qconf with
    | none => { d with enabled := true }
    | some qconf => qdmaDescqConfig { d with enabled := true } qconf false 0

/-- `qdma_queue_remove`, on the queue itself. -/
def descqRemove (d : Descq) : Descq :=
  { qdmaDescqFreeResource { d with inited := false, online := false } with enabled := false }

/-- One step. -/
def QSys.queueOp (s : QSys) : QueueOp → QSys
  | .sys l => s.step l
  | .packetWrite req mapped =>
      { s with q := (qdmaQueuePacketWrite s.q s.nreq req mapped).1, nreq := s.nreq + 1 }
  | .add qconf => { s with q := descqAdd s.q qconf }
  | .remove => if s.q.enabled then { s with q := descqRemove s.q } else s

/-- Whether the queue is online, and its rings. -/
def Descq.ringState (d : Descq) : Bool × Bool × Bool := (d.online, d.desc.alloc, d.descWrb.alloc)

/-- A queue that is not online has no rings. -/
def Descq.OffNoRings (d : Descq) : Prop :=
  d.online = false → d.desc.alloc = false ∧ d.descWrb.alloc = false

theorem Descq.OffNoRings.congr {d d' : Descq} (h : d.OffNoRings)
    (heq : d'.ringState = d.ringState) : d'.OffNoRings := by
  simp only [Descq.ringState, Prod.mk.injEq] at heq
  obtain ⟨h1, h2, h3⟩ := heq
  intro hoff
  rw [h2, h3]
  exact h (h1 ▸ hoff)

theorem ringState_dataFrame : DataFrame Descq.ringState :=
  { bufs := fun _ _ _ => rfl, pend := fun _ _ => rfl, warned := fun _ _ => rfl
    slots := fun _ _ => rfl, regs := fun _ _ => rfl, copied := fun _ _ => rfl
    lists := fun _ _ _ _ => rfl, pidx := fun _ _ _ => rfl, put := fun _ _ _ => rfl
    bell := fun _ _ => rfl, avail := fun _ _ => rfl, queues := fun _ _ _ _ => rfl
    credit := fun _ _ _ => rfl
    loop := ⟨⟨fun _ _ _ => rfl, fun _ _ => rfl, fun _ _ => rfl⟩, fun _ _ => rfl,
      fun _ _ _ _ => rfl⟩
    device := fun d _ _ _ _ => by
      unfold Descq.deviceWrites
      simp only
      split_ifs <;> rfl }

/-- Both rings are gone after `qdma_descq_free_resource`. -/
theorem freeResource_noRings (d : Descq) : (qdmaDescqFreeResource d).desc.alloc = false ∧
    (qdmaDescqFreeResource d).descWrb.alloc = false := by
  unfold qdmaDescqFreeResource descqFlqFreeResource
  cases hd : d.desc.alloc <;> cases hw : d.descWrb.alloc <;> simp [hd, hw]

theorem Descq.OffNoRings.start {d : Descq} (h : d.OffNoRings) (env : StartEnv) :
    (descqStart d env).1.OffNoRings := by
  have hfree : ∀ d : Descq, (startFreeResource d).OffNoRings := fun d _ => freeResource_noRings d
  have hup : ∀ d : Descq, (descqBringUp d env).1.OffNoRings := by
    intro d
    unfold descqBringUp
    simp only
    split_ifs
    · exact hfree _
    · exact hfree _
    · exact fun hoff => absurd hoff.symm Bool.false_ne_true
  unfold descqStart
  cases env.csr with
  | none => exact hfree d
  | some csr =>
      have hconf : (qdmaDescqConfigComplete d csr).ringState = d.ringState := by
        unfold qdmaDescqConfigComplete
        simp only
        split_ifs <;> rfl
      simp only
      split_ifs
      · exact h.congr hconf
      · exact hup _

/-- **Step lemma.** -/
theorem Descq.OffNoRings.queueOp {s : QSys} (h : s.q.OffNoRings) (op : QueueOp) :
    (s.queueOp op).q.OffNoRings := by
  cases op with
  | packetWrite req mapped =>
      refine h.congr ?_
      show (qdmaQueuePacketWrite s.q s.nreq req mapped).1.ringState = _
      unfold qdmaQueuePacketWrite
      split_ifs <;> rfl
  | add qconf =>
      refine h.congr ?_
      show (descqAdd s.q qconf).ringState = _
      unfold descqAdd
      split_ifs
      · rfl
      · cases qconf <;> rfl
  | remove =>
      show (if s.q.enabled then { s with q := descqRemove s.q } else s).q.OffNoRings
      split_ifs
      · exact fun _ => freeResource_noRings _
      · exact h
  | sys l =>
      show (s.step l).q.OffNoRings
      cases l with
      | stop ctxCleared =>
          show (if s.q.enabled then { s with q := descqStop s.q ctxCleared } else s).q.OffNoRings
          split_ifs
          · exact fun _ => freeResource_noRings _
          · exact h
      | reconfig qconf numVecs =>
          refine h.congr ?_
          show (descqReconfig s.q qconf numVecs).1.ringState = _
          unfold descqReconfig
          split_ifs <;> rfl
      | start env =>
          show (if s.q.enabled then { s with q := (descqStart s.q env).1 } else s).q.OffNoRings
          split_ifs
          · exact h.start env
          · exact h
      | submit req mapped => exact h.congr (ringState_dataFrame.step s trivial)
      | pend id => exact h.congr (ringState_dataFrame.step s trivial)
      | worker => exact h.congr (ringState_dataFrame.step s trivial)
      | service budget fill => exact h.congr (ringState_dataFrame.step s trivial)
      | wait id => exact h.congr (ringState_dataFrame.step s trivial)
      | packetRead req => exact h.congr (ringState_dataFrame.step s trivial)
      | device wbCidx mem wbPidx page => exact h.congr (ringState_dataFrame.step s trivial)

/-- **Run lemma.**  Whatever is done to a queue, it has no rings while it is not online. -/
theorem queueOp_offline {ops : List QueueOp} {s : QSys}
    (hrun : Run QSys.queueOp (fun _ _ => True) { q := {} } ops s) : s.q.OffNoRings :=
  hrun.invariant (I := fun s => s.q.OffNoRings) (fun _ => ⟨rfl, rfl⟩) (fun _ op h _ => h.queueOp op)

/-- **The data path of a queue that is not online.**  After any run in which the queue is added,
configured, started, used, stopped and removed, whether or not these fail, a call on it while it
is not online is harmless exactly if it is guarded. -/
theorem offline_call_iff {ops : List QueueOp} {s : QSys}
    (hrun : Run QSys.queueOp (fun _ _ => True) { q := {} } ops s)
    (hoff : s.q.online = false) (c : DataCall) : Harmless s.q c ↔ Guarded s.q c :=
  harmless_iff hoff (queueOp_offline hrun hoff).1 (queueOp_offline hrun hoff).2 c

/-- An ST C2H queue is added and started, serves a read, and is stopped. -/
def readThenStop : List QueueOp :=
  [.add (some addedC2h.conf), .sys (.start (goodStart (csrOf 4)))] ++ cleanTraffic.map .sys ++
    [.sys (.stop true)]

/-- A memory-mapped queue is stopped with a descriptor not yet written back. -/
def fillThenStop : List QueueOp :=
  [.add (some {}), .sys (.start (goodStart (csrOf 4))),
    .sys (.submit { (readReq 4) with write := true } false), .sys .worker, .sys (.stop true)]

/-- A queue just added is read: there is nothing to read yet. -/
theorem offline_call_iff_added :
    let s := [QueueOp.add (some addedC2h.conf)].foldl QSys.queueOp { q := {} }
    s.q.enabled = true ∧ s.q.online = false ∧ Harmless s.q (.packetRead 0 (readReq 4)) :=
  ⟨by decide +kernel, by decide +kernel, (offline_call_iff (Run.of_admits _ (by decide +kernel))
    (by decide +kernel) _).mpr (fun _ => by decide +kernel)⟩

/-- **A stopped queue is read**: `qdma_queue_packet_read` follows the free list that the stop
has freed, to the buffer at the producer index it has kept, and returns no error; and
`qdma_queue_service` reads the writeback status of a ring that is gone. -/
theorem stopped_queue_read :
    let s := readThenStop.foldl QSys.queueOp { q := {} }
    let m := fillThenStop.foldl QSys.queueOp { q := {} }
    (Run QSys.queueOp (fun _ _ => True) { q := {} } readThenStop s ∧ s.q.enabled = true ∧
        s.q.online = false ∧ Access.sdesc 0 ∈ s.q.touches (.packetRead 1 (readReq 4)) ∧
        s.q.flq.sdescAlloc = false ∧ (s.q.dataCall (.packetRead 1 (readReq 4))).2 = some 4 ∧
        ¬ Harmless s.q (.packetRead 1 (readReq 4)) ∧
        ¬ Harmless s.q (.submit 1 (readReq 4) false)) ∧
      (Run QSys.queueOp (fun _ _ => True) { q := {} } fillThenStop m ∧ m.q.enabled = true ∧
        m.q.online = false ∧ Access.descWb ∈ m.q.touches (.service 0 (fun _ => .noMem)) ∧
        ¬ Harmless m.q (.service 0 (fun _ => .noMem))) := by
  intro s m
  have hread : Access.sdesc 0 ∈ s.q.touches (.packetRead 1 (readReq 4)) := by decide +kernel
  have hsubmit : Access.sdesc 0 ∈ s.q.touches (.submit 1 (readReq 4) false) := by decide +kernel
  have hwb : Access.descWb ∈ m.q.touches (.service 0 (fun _ => .noMem)) := by decide +kernel
  have hsdesc : ¬ s.q.Allows (.sdesc 0) := by decide +kernel
  have hdescWb : ¬ m.q.Allows .descWb := by decide +kernel
  refine ⟨⟨Run.of_admits _ (by decide +kernel), by decide +kernel, by decide +kernel, hread,
    by decide +kernel, by decide +kernel, fun h => hsdesc (h.inside _ hread),
    fun h => hsdesc (h.inside _ hsubmit)⟩, Run.of_admits _ (by decide +kernel), by decide +kernel,
    by decide +kernel, hwb, fun h => hdescWb (h.inside _ hwb)⟩

end Qdma
