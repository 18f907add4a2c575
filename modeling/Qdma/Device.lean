/-
# The queues of a device

The device with all its queues, the threads that serve them and the interrupt vectors: what
`qdma_queue_add`, `qdma_queue_reconfig`, `qdma_queue_start`, `qdma_queue_stop`,
`qdma_queue_remove` and `qdma_device_cleanup` do to it, one call after the other.

A queue has one node for each list it may be linked on: `wrkthp_list` for the work list of a
request thread, `wbthp_list` for that of a completion thread, and `intr_list` for the list of
an interrupt vector.  Unlinking a node that is not linked corrupts memory; here it only sets
`badUnlink`.  A call that follows a null pointer is counted in `faults`, and does not return.
-/
import Qdma.Setup
import Qdma.ListHeads

namespace Qdma

/-! ## Error codes -/

/-- `QDMA_ERR_INVALID_QIDX`. -/
def qdmaErrInvalidQidx : ℤ := -7

/-- `QDMA_ERR_DESCQ_FULL`. -/
def qdmaErrDescqFull : ℤ := -11

/-- `QDMA_ERR_DESCQ_IDX_ALREADY_ADDED`. -/
def qdmaErrDescqIdxAlreadyAdded : ℤ := -12

/-- `QDMA_ERR_INTERFACE_NOT_ENABLED_IN_DEVICE`. -/
def qdmaErrInterfaceNotEnabledInDevice : ℤ := -16

/-- `QDMA_ERR_INVALID_INPUT_PARAM`. -/
def qdmaErrInvalidInputParam : ℤ := -5

/-- `QDMA_ERR_INVALID_QDMA_DEVICE`. -/
def qdmaErrInvalidQdmaDevice : ℤ := -15

/-- In place of a value, for a call that does not return: below all error numbers. -/
def noReturn : ℤ := -4096

/-- `QDMA_QUEUE_IDX_INVALID`. -/
def qdmaQueueIdxInvalid : ℕ := 0xFFFF

/-! ## The device -/

/-- `struct qdma_kthread`: its work list, of queue numbers, and `work_cnt`. -/
structure Kthread where
  workList : List ℕ := []
  workCnt : ℕ := 0

/-- A device with its queues, and the threads of the module.  Queue `id` is H2C queue `id` if
`id < qmax`, and else C2H queue `id - qmax`.  The threads serve the queues of other devices,
too; these have numbers from `2 * qmax` on.  `vf` is set in the driver of a VF, `name` is
`conf.name`, and `gone` says that there is no `qdev`. -/
structure QdmaDev where
  vf : Bool := false
  name : String := ""
  idx : ℕ := 0
  qmax : ℕ
  numVecs : ℕ
  dvecStartIdx : ℕ
  intrCoalEn : Bool
  stModeEn : Bool := true
  mmModeEn : Bool := true
  threadCnt : ℕ
  descq : ℕ → Descq
  h2cQcnt : ℕ := 0
  c2hQcnt : ℕ := 0
  wrk : ℕ → Kthread
  wb : ℕ → Kthread
  intrList : ℕ → List ℕ
  intrListCnt : ℕ → ℕ
  badUnlink : Bool := false
  gone : Bool := false
  faults : ℕ := 0

/-- A null pointer is followed. -/
def QdmaDev.fault (x : QdmaDev) : QdmaDev × ℤ := ({ x with faults := x.faults + 1 }, noReturn)

/-- Queue `id` in another state. -/
def QdmaDev.setDescq (x : QdmaDev) (id : ℕ) (d : Descq) : QdmaDev :=
  { x with descq := Function.update x.descq id d }

@[simp] theorem setDescq_self (x : QdmaDev) (id : ℕ) (d : Descq) :
    (x.setDescq id d).descq id = d := Function.update_self ..

theorem setDescq_of_ne (x : QdmaDev) {id id' : ℕ} (d : Descq) (h : id' ≠ id) :
    (x.setDescq id d).descq id' = x.descq id' := Function.update_of_ne h ..

/-- `qdma_device_get_descq_by_id` with `init` set finds queue `id`. -/
def QdmaDev.Has (x : QdmaDev) (id : ℕ) : Prop :=
  x.gone = false ∧ id < 2 * x.qmax ∧ (x.descq id).enabled = true

instance (x : QdmaDev) (id : ℕ) : Decidable (x.Has id) := inferInstanceAs (Decidable (_ ∧ _ ∧ _))

/-! ## Threads -/

/-- Queue `id` goes to the end of a work list. -/
def Kthread.add (t : Kthread) (id : ℕ) : Kthread :=
  { workList := t.workList ++ [id], workCnt := u32 (t.workCnt + 1) }

/-- Its node is taken off. -/
def Kthread.del (t : Kthread) (id : ℕ) : Kthread :=
  { workList := t.workList.erase id, workCnt := u32Sub t.workCnt 1 }

/-- The loop of `qdma_thread_add_work` that looks for a thread, from thread `i` on with `n`
threads to go.  `v` is the work of the first thread. -/
def pickThreadLoop (cnt : ℕ → ℕ) (threadCnt : ℕ) : ℕ → ℕ → ℕ → ℕ → ℕ
  | 0, _, _, idx => idx
  | n + 1, i, v, idx =>
      if idx = threadCnt then pickThreadLoop cnt threadCnt n (i + 1) (cnt i) i
      else if cnt i = 0 then i
      else if cnt i < v then pickThreadLoop cnt threadCnt n (i + 1) v i
      else pickThreadLoop cnt threadCnt n (i + 1) v idx

/-- The request thread `qdma_thread_add_work` gives the next queue to. -/
def QdmaDev.pickThread (x : QdmaDev) : ℕ :=
  pickThreadLoop (fun i => (x.wrk i).workCnt) x.threadCnt x.threadCnt 0 0 x.threadCnt

/-- The completion thread it goes to, in polled mode. -/
def QdmaDev.pickCmplThread (x : QdmaDev) : Option ℕ :=
  if x.numVecs = 0 then some (x.threadCnt - x.pickThread - 1) else none

/-- `qdma_thread_add_work` before its locked section: the queue is linked. -/
def QdmaDev.threadLink (x : QdmaDev) (id : ℕ) : QdmaDev :=
  { x with
    wrk := Function.update x.wrk x.pickThread ((x.wrk x.pickThread).add id)
    wb := match x.pickCmplThread with
      | some j => Function.update x.wb j ((x.wb j).add id)
      | none => x.wb }

/-- Its locked section: the queue knows its threads. -/
def QdmaDev.threadAssign (x : QdmaDev) (id : ℕ) (rq cmpl : Option ℕ) : QdmaDev :=
  x.setDescq id { x.descq id with wrkthp := rq, wbthp := cmpl }

/-- `qdma_thread_add_work`. -/
def QdmaDev.threadAddWork (x : QdmaDev) (id : ℕ) : QdmaDev :=
  (x.threadLink id).threadAssign id (some x.pickThread) x.pickCmplThread

/-- `list_del` of a request thread's node, in `qdma_thread_remove_work`. -/
def QdmaDev.unlinkWrk (x : QdmaDev) (id : ℕ) : Option ℕ → QdmaDev
  | none => x
  | some i =>
      { x with
        wrk := Function.update x.wrk i ((x.wrk i).del id)
        badUnlink := x.badUnlink || decide (id ∉ (x.wrk i).workList) }

/-- `list_del` of a completion thread's node. -/
def QdmaDev.unlinkWb (x : QdmaDev) (id : ℕ) : Option ℕ → QdmaDev
  | none => x
  | some j =>
      { x with
        wb := Function.update x.wb j ((x.wb j).del id)
        badUnlink := x.badUnlink || decide (id ∉ (x.wb j).workList) }

/-- `qdma_thread_remove_work`. -/
def QdmaDev.threadRemoveWork (x : QdmaDev) (id : ℕ) : QdmaDev :=
  let rq := (x.descq id).wrkthp
  let cmpl := (x.descq id).wbthp
  ((x.threadAssign id none none).unlinkWrk id rq).unlinkWb id cmpl

/-! ## Interrupt vectors -/

/-- The loop of `desc_alloc_irq` that looks for the vector with the fewest queues, from vector
`i` on with `n` vectors to go. -/
def pickVecLoop (cnt : ℕ → ℕ) : ℕ → ℕ → ℕ → ℕ → ℕ
  | 0, _, _, idx => idx
  | n + 1, i, min, idx =>
      let (min, idx) := if cnt i < min then (cnt i, i) else (min, idx)
      if min = 0 then idx else pickVecLoop cnt n (i + 1) min idx

/-- The vector `desc_alloc_irq` picks, if the device has any. -/
def QdmaDev.pickVec (x : QdmaDev) : Option ℕ :=
  if x.numVecs = 0 then none
  else if x.intrCoalEn then some x.dvecStartIdx
  else some (pickVecLoop x.intrListCnt (x.numVecs - x.dvecStartIdx) x.dvecStartIdx
    (x.intrListCnt x.dvecStartIdx) x.dvecStartIdx)

/-- `desc_alloc_irq` counts the queue. -/
def QdmaDev.countVec (x : QdmaDev) : QdmaDev :=
  match x.pickVec with
  | some v =>
      if x.intrCoalEn then x
      else { x with intrListCnt := Function.update x.intrListCnt v (x.intrListCnt v + 1) }
  | none => x

/-- `desc_free_irq`. -/
def QdmaDev.descFreeIrq (x : QdmaDev) (id : ℕ) : QdmaDev :=
  let v := (x.descq id).intrId
  if x.numVecs = 0 then x
  else { x with intrListCnt := Function.update x.intrListCnt v (x.intrListCnt v - 1) }

/-- `list_add_tail` of the interrupt node.  The heads of vectors the device does not have are
not initialized: there the kernel follows a null pointer and nothing is linked. -/
def QdmaDev.intrLink (x : QdmaDev) (id : ℕ) : QdmaDev :=
  let v := (x.descq id).intrId
  if x.numVecs ≠ 0 ∧ v < x.numVecs then
    { x with intrList := ListHeads.enqueue x.intrList v id }
  else x

/-- `list_del` of the interrupt node. -/
def QdmaDev.intrUnlink (x : QdmaDev) (id : ℕ) : QdmaDev :=
  let v := (x.descq id).intrId
  if x.numVecs = 0 then x
  else
    { x with
      intrList := ListHeads.unlink x.intrList v id
      badUnlink := x.badUnlink || decide (id ∉ x.intrList v) }

/-! ## Start and stop in steps -/

/-- `qdma_queue_start` before its first locked section. -/
def startConfig (d : Descq) : Option GlobalCsrConf → Descq × ℤ
  | none => (startFreeResource d, einval)
  | some csr => (qdmaDescqConfigComplete d csr, 0)

/-- Its first locked section. -/
def startCheck (d : Descq) : Descq × ℤ :=
  if !d.enabled || d.inited || d.online then (d, qdmaErrInvalidDescqState) else (d.markInited, 0)

/-- Its second locked section, where `qdma_descq_alloc_resource` has returned `rv`. -/
def startProgHw (d : Descq) (rv : ℤ) (env : StartEnv) : Descq × ℤ :=
  if rv < 0 then (startFreeResource d, rv)
  else
    let (d, rv) := qdmaDescqProgHw d env.ctx
    if rv < 0 then (startFreeResource (qdmaDescqContextClear d env.ctxCleared), rv)
    else (d.markOnline, 0)

/-- The steps make up `descqStart`. -/
theorem descqStart_steps (d : Descq) (env : StartEnv) :
    descqStart d env =
      let (d, rv) := startConfig d env.csr
      if rv < 0 then (d, rv)
      else
        let (d, rv) := startCheck d
        if rv < 0 then (d, rv)
        else
          let (d, rv) := qdmaDescqAllocResource d env.alloc env.irq
          startProgHw d rv env := by
  unfold descqStart startConfig
  cases env.csr with
  | none => rfl
  | some csr =>
      have herr : qdmaErrInvalidDescqState < 0 := by decide
      unfold startCheck
      simp only [lt_irrefl, if_false]
      by_cases h : (!(qdmaDescqConfigComplete d csr).enabled || (qdmaDescqConfigComplete d csr).inited
          || (qdmaDescqConfigComplete d csr).online) = true
      · rw [if_pos h, if_pos h, if_pos herr]
      · rw [if_neg h, if_neg h]
        simp only [lt_irrefl, if_false]
        rfl

/-! ## The operations -/

/-- `qdma_queue_start` from its second locked section on; `rv` is what
`qdma_descq_alloc_resource` returned. -/
def QdmaDev.startFinish (x : QdmaDev) (id : ℕ) (rv : ℤ) (env : StartEnv) : QdmaDev × ℤ :=
  let (d, rv) := startProgHw (x.descq id) rv env
  let x := x.setDescq id d
  if rv < 0 then (x, rv) else ((x.threadAddWork id).intrLink id, 0)

/-- `qdma_queue_start`; of the answers `env` the vector is the device's own choice. -/
def QdmaDev.queueStart (x : QdmaDev) (id : ℕ) (env : StartEnv) : QdmaDev × ℤ :=
  if x.Has id then
    let (d, rv) := startConfig (x.descq id) env.csr
    if rv < 0 then (x.setDescq id d, rv)
    else
      let (d, rv) := startCheck d
      if rv < 0 then (x.setDescq id d, rv)
      else
        let (d, rv) := qdmaDescqAllocResource d env.alloc x.pickVec
        let x := x.setDescq id d
        (if rv < 0 then x else x.countVec).startFinish id rv env
  else (x, qdmaErrInvalidQidx)

/-- The context is cleared and the rings are freed, in `qdma_queue_stop`. -/
def stopRelease (d : Descq) (ctxCleared : Bool) : Descq :=
  qdmaDescqFreeResource (qdmaDescqContextClear d ctxCleared)

/-- The last locked section of `qdma_queue_stop`. -/
def stopOffline (d : Descq) : Descq := { d with online := false, inited := false }

/-- These steps make up `descqStop`. -/
theorem descqStop_steps (d : Descq) (ctxCleared : Bool) :
    descqStop d ctxCleared
      = stopOffline (stopRelease { d with wrkthp := none, wbthp := none } ctxCleared) := rfl

/-- `qdma_queue_stop`. -/
def QdmaDev.queueStop (x : QdmaDev) (id : ℕ) (ctxCleared : Bool) : QdmaDev :=
  if x.Has id then
    let x := (x.threadRemoveWork id).intrUnlink id
    x.setDescq id (stopOffline (stopRelease (x.descq id) ctxCleared))
  else x

/-- `qdma_descq_cleanup`. -/
def QdmaDev.descqCleanup (x : QdmaDev) (id : ℕ) (ctxCleared : Bool) : QdmaDev :=
  let d := x.descq id
  let d := if d.inited then qdmaDescqContextClear { d with inited := false, online := false } ctxCleared
    else d
  let x := (x.setDescq id d).descFreeIrq id
  x.setDescq id (qdmaDescqFreeResource (x.descq id))

/-- A queue less in the count of its direction. -/
def QdmaDev.uncount (x : QdmaDev) (c2h : Bool) : QdmaDev :=
  if c2h then { x with c2hQcnt := u16Sub x.c2hQcnt 1 }
  else { x with h2cQcnt := u16Sub x.h2cQcnt 1 }

/-- `qdma_queue_remove`. -/
def QdmaDev.queueRemove (x : QdmaDev) (id : ℕ) (ctxCleared : Bool) : QdmaDev :=
  if x.Has id then
    let x := x.setDescq id { x.descq id with inited := false, online := false }
    let x := x.descqCleanup id ctxCleared
    let x := x.setDescq id { x.descq id with enabled := false }
    x.uncount (x.descq id).conf.c2h
  else x

/-- `qdma_queue_reconfig`. -/
def QdmaDev.queueReconfig (x : QdmaDev) (id : ℕ) (qconf : QueueConf) : QdmaDev :=
  if x.Has id then x.setDescq id (descqReconfig (x.descq id) qconf x.numVecs).1 else x

/-- The number of queue `i` of a direction. -/
def QdmaDev.queueId (x : QdmaDev) (c2h : Bool) (i : ℕ) : ℕ := if c2h then x.qmax + i else i

/-- The other queue of the pair is in use in another mode. -/
def QdmaDev.modeClash (x : QdmaDev) (qconf : QueueConf) (i : ℕ) : Bool :=
  let pairq := x.descq (x.queueId (!qconf.c2h) i)
  pairq.enabled && (qconf.st != pairq.conf.st)

/-- `ST` or `MM`, in a message. -/
def modeText (st : Bool) : String := if st then "ST" else "MM"

/-- What `qdma_queue_add` says without a place for the handle. -/
def noQhndlText (name : String) : String := name ++ ", add, qhndl NULL.\n"

/-- What it says when no queue is free. -/
def QdmaDev.noQpText (x : QdmaDev) (st : Bool) : String :=
  "qdma" ++ toString x.idx ++ " no " ++ modeText st ++ " QP, " ++ toString x.qmax ++ ".\n"

/-- What it says when the pair has another mode. -/
def sameModeText : String := "Need to have same mode for Q pair.\n"

/-- What it says when the queue is in use. -/
def alreadyAddedText (i : ℕ) : String := "q idx " ++ toString i ++ " already added.\n"

/-- The name `qdma_descq_config` gives queue `i`. -/
def QdmaDev.qName (x : QdmaDev) (st : Bool) (i : ℕ) : String :=
  (if x.vf then "qdmavf" else "qdma") ++ toString x.idx ++ "-" ++ modeText st ++ "-" ++ toString i

/-- What `qdma_queue_add` says in the end. -/
def QdmaDev.addedText (x : QdmaDev) (qconf : QueueConf) (i : ℕ) : String :=
  x.qName qconf.st i ++ (if qconf.c2h then " C2H" else " H2C") ++ " added.\n"

/-- A buffer of this length does not hold a message. -/
def truncated (buflen : Option ℕ) (text : String) : Bool :=
  match buflen with
  | none => false
  | some n => n != 0 && decide (n ≤ text.length)

/-- The search of `qdma_queue_add` for a queue, with the message if there is none. -/
def QdmaDev.findQueue (x : QdmaDev) (qconf : QueueConf) : Except (ℤ × String) ℕ :=
  if qconf.qidx = qdmaQueueIdxInvalid then
    match (List.range x.qmax).find? (fun i =>
        !x.modeClash qconf i && !(x.descq (x.queueId qconf.c2h i)).enabled) with
    | some i => .ok i
    | none => .error (qdmaErrDescqFull, x.noQpText qconf.st)
  else if x.modeClash qconf qconf.qidx then .error (einval, sameModeText)
  else if (x.descq (x.queueId qconf.c2h qconf.qidx)).enabled then
    .error (qdmaErrDescqIdxAlreadyAdded, alreadyAddedText qconf.qidx)
  else .ok qconf.qidx

/-- A queue more in the count of a direction. -/
def QdmaDev.count (x : QdmaDev) (c2h : Bool) : QdmaDev :=
  if c2h then { x with c2hQcnt := u16 (x.c2hQcnt + 1) }
  else { x with h2cQcnt := u16 (x.h2cQcnt + 1) }

/-- The arguments of `qdma_queue_add`, of which `qhndl` says that it is not null and `buflen`
is the length of the message buffer, if there is one; and `prep`, what
`qdma_device_prep_q_resource` returns. -/
structure AddCall where
  qconf : Option QueueConf
  qhndl : Bool := true
  buflen : Option ℕ := none
  prep : ℤ := 0

/-- `qdma_queue_add` once a queue is counted.  A message that is cut off leaves the count as it
is, and the queue stays enabled if `qdma_device_prep_q_resource` fails. -/
def QdmaDev.queueClaim (x : QdmaDev) (c : AddCall) (qconf : QueueConf) : QdmaDev × ℤ :=
  match x.findQueue qconf with
  | .error (rv, text) => (if truncated c.buflen text then x else x.uncount qconf.c2h, rv)
  | .ok i =>
      let id := x.queueId qconf.c2h i
      let x := x.setDescq id { x.descq id with enabled := true }
      if c.prep < 0 then (x.uncount qconf.c2h, c.prep)
      else
        let x := x.setDescq id (qdmaDescqConfig (x.descq id) { qconf with qidx := i } false x.numVecs)
        (x, if truncated c.buflen (x.addedText qconf i) then c.prep else 0)

/-- `qdma_queue_add`.  Of its first messages only the one about the handle counts, which is followed
by `spin_unlock(&qdev->lock)` unless it is cut off; the others change nothing. -/
def QdmaDev.queueAdd (x : QdmaDev) (c : AddCall) : QdmaDev × ℤ :=
  match c.qconf with
  | none => (x, qdmaErrInvalidInputParam)
  | some qconf =>
      if !c.qhndl then
        if x.gone && !truncated c.buflen (noQhndlText x.name) then x.fault
        else (x, qdmaErrInvalidQidx)
      else if (qconf.st && !x.stModeEn) || (!qconf.st && !x.mmModeEn) then
        (x, qdmaErrInterfaceNotEnabledInDevice)
      else if x.gone then x.fault
      else if qconf.qidx ≠ qdmaQueueIdxInvalid ∧ qconf.qidx ≥ x.qmax then (x, qdmaErrInvalidQidx)
      else if (if qconf.c2h then x.c2hQcnt else x.h2cQcnt) ≥ x.qmax then (x, qdmaErrDescqFull)
      else (x.count qconf.c2h).queueClaim c qconf

/-- `qdma_queue_config`. -/
def QdmaDev.queueConfig (x : QdmaDev) (qid : ℕ) (qconf : QueueConf) : QdmaDev × ℤ :=
  if x.gone then (x, qdmaErrInvalidQdmaDevice)
  else if qid ≥ 2 * x.qmax then (x, qdmaErrInvalidQidx)
  else if (x.descq qid).enabled then (x, einval)
  else
    let x := x.setDescq qid { x.descq qid with enabled := true }
    let x := x.count qconf.c2h
    (x.setDescq qid (qdmaDescqConfig (x.descq qid) qconf false x.numVecs), 0)

/-- `qdma_device_cleanup`: every enabled queue is stopped, every queue cleaned up. -/
def QdmaDev.deviceCleanup (x : QdmaDev) (ctxCleared : ℕ → Bool) : QdmaDev :=
  if x.gone then x
  else
    let ids := List.range (2 * x.qmax)
    let x := ids.foldl (fun x id => x.queueStop id (ctxCleared id)) x
    let x := ids.foldl (fun x id => x.descqCleanup id (ctxCleared id)) x
    { x with gone := true }

end Qdma
