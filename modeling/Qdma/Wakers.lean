/-
# Who makes work wakes a thread

A request thread has work on a queue where a request waits for descriptors and there are some, a
writeback thread where requests wait for their end.  Submissions, ends of waits, service calls,
passes of the threads and writes of the device change that.

`qdmaThreadWrkPend_act`, `qdmaThreadWbPend_act`: whatever makes work on a queue wakes the thread
that is to do it.
-/
import Qdma.Sleeper
import Qdma.Serve
import Qdma.Served
import Qdma.Offline
import Qdma.Drain

namespace Qdma

open Exec ListHeads

/-! ## What happens to a queue -/

/-- What happens to a queue: a call of the data path, the end of a wait, a pass of a request
thread, or the device writes. -/
inductive QueueAct where
  | call (c : DataCall)
  | wait (k : ℕ)
  | pass
  | device (wbCidx : ℕ) (mem : ℕ → ℕ) (wbPidx : ℕ) (page : ℕ → ℕ → UInt8)

/-- The queue afterwards. -/
def Descq.act (d : Descq) : QueueAct → Descq
  | .call c => (d.dataCall c).1
  | .wait k => (qdmaRequestWaitForCmpl d k).1
  | .pass => qdmaThreadWrkProc d
  | .device wbCidx mem wbPidx page => d.deviceWrites wbCidx mem wbPidx page

/-- `qdma_thread_wrk_pend`: the requests that can be given descriptors. -/
def qdmaThreadWrkPend (d : Descq) : ℕ :=
  d.workList.countP (fun cb =>
    (decide (cb.req.count = 0) || decide (cb.offset < cb.req.count)) && decide (d.avail ≠ 0))

/-- `qdma_thread_wb_pend`. -/
def qdmaThreadWbPend (d : Descq) : Bool := !d.pendList.isEmpty

/-- Whether `descq_mm_n_h2c_wb` wakes the request thread: it has found credit, and requests wait. -/
def wbWakes (d : Descq) : Bool :=
  decide (d.pidx ≠ d.cidx) && decide (d.desc.wbCidx ≠ d.cidx) && !d.workList.isEmpty &&
    decide ((descqWbCredit d d.desc.wbCidx).1.avail ≠ 0)

/-- Whether a pass over the blocks of `work_list` wakes the writeback thread:
`descq_mm_proc_request` and `descq_proc_st_h2c_request` do where they have put descriptors. -/
def wrkProcWakes : List SgtReqCb → Descq → Bool
  | [], _ => false
  | cb :: cbs, d =>
      let (d', rv) := qdmaDescqProcSgtRequest d cb
      let posted := decide (d.avail ≠ 0) && decide (rv = 0)
      let d' := if rv < 0 then qdmaSgtReqDone d' cb rv else d'
      posted || (if d'.avail = 0 then false else wrkProcWakes cbs d')

/-- How `wrkthp` is woken, if the queue has one: by a submission once it has let go of the lock, by
the service of a writeback at once. -/
def Descq.wakesWrk (d : Descq) : QueueAct → Sleeper.Signal
  | .call (.submit k req mapped) =>
      if !d.isRx && (requestSubmit d k req mapped).2.isNone then .later else .none
  | .call (.packetWrite k req mapped) =>
      if 0 ≤ (qdmaQueuePacketWrite d k req mapped).2 then .later else .none
  | .call (.service _ _) => if !d.isRx && wbWakes d then .now else .none
  | _ => .none

/-- How `wbthp` is woken: by a reader that goes on `pend_list`, and by a pass at once. -/
def Descq.wakesWb (d : Descq) : QueueAct → Sleeper.Signal
  | .call (.submit k req mapped) =>
      if d.isRx && (requestSubmit d k req mapped).2.isNone then .later else .none
  | .pass => if wrkProcWakes d.workList d then .now else .none
  | _ => .none

/-! ## What a queue keeps -/

section Frame

variable {α : Type*} {f : Descq → α}

theorem DataFrame.requestSubmit (hf : DataFrame f) (d : Descq) (k : ℕ) (req : Request)
    (mapped : Bool) : f (requestSubmit d k req mapped).1 = f d := by
  have hread : f (submitStC2hRead d k req).1 = f d := hf.read d _ true true
  unfold Qdma.requestSubmit
  simp only
  split_ifs
  · rfl
  · exact hread
  · exact (hf.submitPend _ _).trans hread
  · exact hf.submit d k req mapped

theorem TxFrame.packetWrite (hf : TxFrame f) (d : Descq) (k : ℕ) (req : Request) (mapped : Bool) :
    f (qdmaQueuePacketWrite d k req mapped).1 = f d := by
  unfold qdmaQueuePacketWrite
  split_ifs
  · rfl
  · rfl
  · rfl
  · exact hf.queues d _ d.pendList d.finished

/-- Whatever happens to a queue. -/
theorem DataFrame.act (hf : DataFrame f) (d : Descq) (a : QueueAct) : f (d.act a) = f d := by
  cases a with
  | call c =>
      cases c with
      | submit k req mapped => exact hf.requestSubmit d k req mapped
      | packetRead k req => exact hf.packetRead d k req
      | packetWrite k req mapped => exact hf.packetWrite d k req mapped
      | service budget fill => exact hf.serviceWb d budget fill
  | wait k => exact hf.wait d k
  | pass => exact hf.wrkProcLoop _ d
  | device wbCidx mem wbPidx page => exact hf.device d wbCidx mem wbPidx page

end Frame

/-- The free list is there or not as before. -/
theorem sdescAlloc_act (d : Descq) (a : QueueAct) :
    (d.act a).flq.sdescAlloc = d.flq.sdescAlloc := by
  have hread : ∀ cb u r, (descqStC2hRead d cb u r).1.flq.sdescAlloc = d.flq.sdescAlloc :=
    fun cb u r => sdescAlloc_flqFrame.read d cb u r
  cases a with
  | call c =>
      cases c with
      | submit k req mapped =>
          have hpend : ∀ (e : Descq) cb, (submitStC2hPend e cb).1.flq = e.flq := by
            intro e cb
            unfold submitStC2hPend
            split_ifs <;> rfl
          show (requestSubmit d k req mapped).1.flq.sdescAlloc = _
          unfold requestSubmit
          simp only
          split_ifs
          · rfl
          · exact hread _ true true
          · rw [hpend]
            exact hread _ true true
          · exact sdescAlloc_txFrame.submit d k req mapped
      | packetRead k req =>
          show (qdmaQueuePacketRead d k req).1.flq.sdescAlloc = _
          unfold qdmaQueuePacketRead
          split_ifs
          · rfl
          · exact hread _ true true
      | packetWrite k req mapped => exact sdescAlloc_txFrame.packetWrite d k req mapped
      | service budget fill =>
          show (qdmaDescqServiceWb d budget fill).flq.sdescAlloc = _
          unfold qdmaDescqServiceWb
          split_ifs
          · exact sdescAlloc_flqFrame.processCompletion (fun _ _ _ => rfl) d budget fill
          · exact sdescAlloc_txFrame.wb d
  | wait k => exact sdescAlloc_txFrame.wait d k
  | pass => exact sdescAlloc_txFrame.wrkProcLoop _ d
  | device wbCidx mem wbPidx page =>
      show (d.deviceWrites wbCidx mem wbPidx page).flq.sdescAlloc = _
      unfold Descq.deviceWrites
      simp only
      split_ifs <;> rfl

theorem intrId_dataFrame : DataFrame Descq.intrId :=
  { bufs := fun _ _ _ => rfl, pend := fun _ _ => rfl, warned := fun _ _ => rfl,
    slots := fun _ _ => rfl, regs := fun _ _ => rfl, copied := fun _ _ => rfl,
    lists := fun _ _ _ _ => rfl, pidx := fun _ _ _ => rfl,
    put := fun _ _ _ => rfl, bell := fun _ _ => rfl, avail := fun _ _ => rfl,
    queues := fun _ _ _ _ => rfl, credit := fun _ _ _ => rfl
    loop := { bufs := fun _ _ _ => rfl, pend := fun _ _ => rfl, warned := fun _ _ => rfl,
              err := fun _ _ => rfl, next := fun _ _ _ _ => rfl }
    device := fun d _ _ _ _ => by
      unfold Descq.deviceWrites
      simp only
      split_ifs <;> rfl }

theorem sameUp_act (d : Descq) (a : QueueAct) : SameUp d (d.act a) :=
  .of_part (upPart_dataFrame.act d a) (sdescAlloc_act d a)

/-! ## Requests that wait for descriptors -/

theorem qdmaThreadWrkPend_pos {d : Descq} (h : 0 < qdmaThreadWrkPend d) :
    d.avail ≠ 0 ∧ ∃ cb ∈ d.workList, cb.req.count = 0 ∨ cb.offset < cb.req.count := by
  obtain ⟨cb, hcb, hp⟩ := List.countP_pos_iff.mp h
  rw [Bool.and_eq_true, Bool.or_eq_true, decide_eq_true_eq, decide_eq_true_eq,
    decide_eq_true_eq] at hp
  exact ⟨hp.2, cb, hcb, hp.1⟩

theorem pos_qdmaThreadWrkPend {d : Descq} (h0 : d.avail ≠ 0) {cb : SgtReqCb}
    (hcb : cb ∈ d.workList) (h : cb.req.count = 0 ∨ cb.offset < cb.req.count) :
    0 < qdmaThreadWrkPend d := by
  refine List.countP_pos_iff.mpr ⟨cb, hcb, ?_⟩
  rw [Bool.and_eq_true, Bool.or_eq_true, decide_eq_true_eq, decide_eq_true_eq, decide_eq_true_eq]
  exact ⟨h, h0⟩

/-- With fewer requests there is no more work. -/
theorem WrkPend.mono {d d' : Descq} (h : 0 < qdmaThreadWrkPend d') (h0 : d'.avail = d.avail)
    (hsub : d'.workList ⊆ d.workList) : 0 < qdmaThreadWrkPend d := by
  obtain ⟨hav, cb, hcb, hp⟩ := qdmaThreadWrkPend_pos h
  exact pos_qdmaThreadWrkPend (h0 ▸ hav) (hsub hcb) hp

theorem qdmaThreadWrkPend_nil {d : Descq} (h : d.workList = []) : ¬ 0 < qdmaThreadWrkPend d := by
  unfold qdmaThreadWrkPend
  rw [h]
  exact lt_irrefl 0

theorem qdmaSgtReqDone_workList (d : Descq) (cb : SgtReqCb) (e : ℤ) :
    (qdmaSgtReqDone d cb e).workList ⊆ d.workList := List.filter_subset_self ..

theorem qdmaSgtReqDone_pendList (d : Descq) (cb : SgtReqCb) (e : ℤ) :
    (qdmaSgtReqDone d cb e).pendList ⊆ d.pendList := List.filter_subset_self ..

/-- Handing out credit to requests on `pend_list` leaves `work_list` alone. -/
theorem reqUpdatePendLoop_workList {cbs : List SgtReqCb} {credit : ℕ} {d : Descq}
    (h : ∀ cb ∈ cbs, cb.id ∉ d.workList.map SgtReqCb.id) :
    (reqUpdatePendLoop cbs credit d).1.workList ⊆ d.workList ∧
      (reqUpdatePendLoop cbs credit d).1.avail = d.avail := by
  induction cbs generalizing credit d with
  | nil => exact ⟨List.Subset.refl _, rfl⟩
  | cons cb cbs ih =>
      rw [reqUpdatePendLoop]
      by_cases hc : credit ≥ cb.descNr
      · have hsub := qdmaSgtReqDone_workList d cb 0
        simp only [hc, if_true]
        split_ifs
        · exact ⟨hsub, rfl⟩
        · have hrest := @ih (credit - cb.descNr) (qdmaSgtReqDone d cb 0)
            (fun c hcb hin => h c (List.mem_cons_of_mem _ hcb) (List.map_subset _ hsub hin))
          exact ⟨List.Subset.trans hrest.1 hsub, hrest.2⟩
      · simp only [hc, if_false, if_true]
        have hsame : updCb { cb with descNr := cb.descNr - credit } d.workList = d.workList :=
          updCb_eq_self (h cb (List.mem_cons_self ..))
        exact ⟨hsame ▸ List.Subset.refl _, rfl⟩

/-! ## What a queue is to keep -/

/-- **The law of a queue**: every request is seen at most once, and on an ST C2H queue nothing waits
for descriptors. -/
structure Descq.Orderly (d : Descq) : Prop where
  once : ∀ i, d.seen i ≤ 1
  rx : d.isRx = true → d.workList = []

theorem Descq.Orderly.listed_le {d : Descq} (h : d.Orderly) (i : ℕ) : d.listed i ≤ 1 :=
  (Nat.le_add_right _ _).trans (h.once i)

/-- A request is on one of the lists only. -/
theorem Descq.Orderly.apart {d : Descq} (h : d.Orderly) {cb : SgtReqCb} (hcb : cb ∈ d.pendList) :
    cb.id ∉ d.workList.map SgtReqCb.id := by
  intro hin
  have hle := h.listed_le cb.id
  have hw := List.count_pos_iff.mpr hin
  have hp := List.count_pos_iff.mpr (List.mem_map_of_mem (f := SgtReqCb.id) hcb)
  unfold Descq.listed at hle
  omega

theorem Descq.Orderly.toServe {d : Descq} (h : d.Orderly) :
    ToServe d d.workList ∧ ToServe d d.pendList := by
  have hpos : ∀ l : List SgtReqCb, ∀ c ∈ l, 0 < (l.map SgtReqCb.id).count c.id :=
    fun l c hc => List.count_pos_iff.mpr (List.mem_map_of_mem hc)
  refine ⟨⟨List.nodup_iff_count_le_one.mpr (fun i => ?_), fun c hc => ?_⟩,
    ⟨List.nodup_iff_count_le_one.mpr (fun i => ?_), fun c hc => ?_⟩⟩
  · exact (Nat.le_add_right _ _).trans (h.listed_le i)
  · exact Nat.add_pos_left (hpos _ c hc) _
  · exact (Nat.le_add_left _ _).trans (h.listed_le i)
  · exact Nat.add_pos_right _ (hpos _ c hc)

/-- A caller comes with a new request. -/
def Descq.Admits (d : Descq) : QueueAct → Prop
  | .call (.submit k _ _) | .call (.packetWrite k _ _) => d.seen k = 0
  | _ => True

theorem isRx_act (d : Descq) (a : QueueAct) : (d.act a).isRx = d.isRx := (sameUp_act d a).isRx

/-- The reads of the pending requests leave an empty `work_list` empty. -/
theorem packetsProc_workList {cbs : List SgtReqCb} {d : Descq} (h : d.workList = []) :
    (packetsProcDflt cbs d).workList = [] := by
  have hdone : ∀ (d : Descq) cb e, d.workList = [] → (qdmaSgtReqDone d cb e).workList = [] := by
    intro d cb e hd
    exact List.eq_nil_of_subset_nil (hd ▸ qdmaSgtReqDone_workList d cb e)
  have hset : ∀ (d : Descq) cb, d.workList = [] → (d.setCb cb).workList = [] := by
    intro d cb hd
    show updCb cb d.workList = []
    rw [hd]
    rfl
  induction cbs generalizing d with
  | nil => exact h
  | cons cb cbs ih =>
      have hread : (descqStC2hRead d cb false false).1.workList = [] :=
        (congrArg Prod.fst (reqPart_rxFrame.read d cb false false)).trans h
      have hboth := hset _ (descqStC2hRead d cb false false).2.1 hread
      rw [packetsProcDflt]
      split_ifs
      · exact hdone _ _ _ h
      · simp only
        split_ifs
        · exact ih (hdone _ _ _ (hdone _ _ _ hboth))
        · exact ih (hdone _ _ _ hboth)
        · exact hdone _ _ _ hboth
        · exact hboth

/-- So does the service of an ST C2H queue. -/
theorem processCompletion_workList {d : Descq} (h : d.workList = []) (budget : ℤ)
    (fill : ℕ → FillOutcome) : (descqProcessCompletionStC2h d budget fill).1.workList = [] := by
  unfold descqProcessCompletionStC2h
  simp only
  split_ifs
  · exact h
  · exact h
  · exact h
  · have hloop := reqPart_loopFrame.procLoop (procBudget budget
      (ringIdxDelta d.descWrb.wbPidx d.cidxWrb d.conf.rngszWrb)) { d := d, pidx := d.pidx }
    generalize procLoop (procBudget budget (ringIdxDelta d.descWrb.wbPidx d.cidxWrb
      d.conf.rngszWrb)) { d := d, pidx := d.pidx } = p at hloop
    have hp : p.d.workList = [] := (congrArg Prod.fst hloop).trans h
    have hrefill : ∀ d' : Descq, (procRefill d' d.flq.pidxPend fill).workList = d'.workList :=
      fun d' => congrArg Prod.fst (reqPart_rxFrame.procRefill d' d.flq.pidxPend fill)
    split
    · exact hp
    · unfold procEnd
      simp only
      split_ifs
      · show (procRefill _ _ _).workList = []
        rw [hrefill]
        exact packetsProc_workList hp
      · show (procRefill _ _ _).workList = []
        rw [hrefill]
        exact hp
      · exact hp

/-- A request that is seen nowhere may be put on a list. -/
theorem seen_le_of_add {d d' : Descq} (h : ∀ i, d.seen i ≤ 1) {k : ℕ} (hk : d.seen k = 0)
    (hadd : ∀ i, d'.seen i ≤ d.seen i + if k = i then 1 else 0) : ∀ i, d'.seen i ≤ 1 := by
  intro i
  have h1 := hadd i
  split_ifs at h1 with hi
  · rw [← hi, hk] at h1
    rw [← hi]
    exact h1
  · exact h1.trans (h i)

theorem seen_enqueue (d : Descq) (cb : SgtReqCb) (i : ℕ) :
    (d.enqueue cb).seen i ≤ d.seen i + if cb.id = i then 1 else 0 := by
  have hl := listed_enqueue d cb i
  have hc : (d.enqueue cb).completed i = d.completed i := rfl
  unfold Descq.seen
  omega

theorem seen_pend (d : Descq) (cb : SgtReqCb) (i : ℕ) :
    (submitStC2hPend d cb).1.seen i ≤ d.seen i + if cb.id = i then 1 else 0 := by
  unfold submitStC2hPend
  by_cases hon : d.online = true
  · rw [if_pos hon]
    show ((d.workList.map SgtReqCb.id).count i
        + ((d.pendList ++ [cb]).map SgtReqCb.id).count i) + d.completed i ≤ _
    rw [List.map_append, List.count_append, List.map_singleton, List.count_singleton]
    unfold Descq.seen Descq.listed
    simp only [beq_iff_eq]
    omega
  · rw [if_neg hon]
    exact Nat.le_add_right _ _

theorem submitStC2hRead_id (d : Descq) (k : ℕ) (req : Request) :
    (submitStC2hRead d k req).2.id = k := by
  unfold submitStC2hRead descqStC2hRead
  simp only
  split_ifs <;> rfl

theorem submitStC2hRead_reqPart (d : Descq) (k : ℕ) (req : Request) :
    (submitStC2hRead d k req).1.reqPart = d.reqPart := reqPart_rxFrame.read d _ true true

theorem seen_requestSubmit (d : Descq) (k : ℕ) (req : Request) (mapped : Bool) (i : ℕ) :
    (requestSubmit d k req mapped).1.seen i ≤ d.seen i + if k = i then 1 else 0 := by
  have hread := (SameSeen.of_reqPart (submitStC2hRead_reqPart d k req)).seen i
  have hid := submitStC2hRead_id d k req
  have hpend := seen_pend (submitStC2hRead d k req).1 (submitStC2hRead d k req).2 i
  have hadd : (d.enqueue (req.newCb k)).seen i ≤ _ := seen_enqueue d (req.newCb k) i
  rw [hread, hid] at hpend
  rw [show (req.newCb k).id = k from rfl] at hadd
  generalize (if k = i then 1 else 0) = n at hpend hadd ⊢
  unfold requestSubmit qdmaRequestSubmit
  simp only
  split_ifs
  · exact Nat.le_add_right _ _
  · exact hread.le.trans (Nat.le_add_right _ _)
  · exact hpend
  · exact Nat.le_add_right _ _
  · exact Nat.le_add_right _ _
  · exact Nat.le_add_right _ _
  · exact hadd

/-- **The law of a queue** holds whatever happens to it, if callers come with new requests. -/
theorem Descq.Orderly.act {d : Descq} (h : d.Orderly) {a : QueueAct} (ha : d.Admits a) :
    (d.act a).Orderly := by
  have hfewer : ∀ {d' : Descq}, FewerSeen d d' → ∀ i, d'.seen i ≤ 1 :=
    fun hf i => (hf.seen i).trans (h.once i)
  have hsame : ∀ {d' : Descq}, d'.reqPart = d.reqPart → ∀ i, d'.seen i ≤ 1 :=
    fun hq => hfewer (SameSeen.of_reqPart hq).fewerSeen
  refine ⟨?_, fun hrx => ?_⟩
  · cases a with
    | call c =>
        cases c with
        | submit k req mapped => exact seen_le_of_add h.once ha (seen_requestSubmit d k req mapped)
        | packetRead k req => exact hsame (reqPart_rxFrame.packetRead d k req)
        | packetWrite k req mapped =>
            show ∀ i, (qdmaQueuePacketWrite d k req mapped).1.seen i ≤ 1
            unfold qdmaQueuePacketWrite
            split_ifs
            · exact h.once
            · exact h.once
            · exact h.once
            · exact seen_le_of_add h.once ha (seen_enqueue d (req.newCb k))
        | service budget fill =>
            show ∀ i, (qdmaDescqServiceWb d budget fill).seen i ≤ 1
            unfold qdmaDescqServiceWb
            split_ifs
            · exact hfewer (fewerSeen_processCompletion d h.toServe.2 budget fill)
            · exact hfewer (fewerSeen_wb d h.toServe.2)
    | wait k =>
        show ∀ i, (qdmaRequestWaitForCmpl d k).1.seen i ≤ 1
        unfold qdmaRequestWaitForCmpl
        cases d.doneCb k with
        | none =>
            refine hfewer ⟨fun i => ?_, fun f => .inl⟩
            show (d.listDel k).listed i + d.completed i ≤ d.listed i + d.completed i
            rw [listed_listDel]
            split_ifs <;> omega
        | some cb => exact h.once
    | pass => exact hfewer (fewerSeen_wrkProcLoop _ _ h.toServe.1)
    | device wbCidx mem wbPidx page =>
        refine hsame ?_
        show (d.deviceWrites wbCidx mem wbPidx page).reqPart = d.reqPart
        unfold Descq.deviceWrites
        simp only
        split_ifs <;> rfl
  · rw [isRx_act] at hrx
    have hnil := h.rx hrx
    cases a with
    | call c =>
        cases c with
        | submit k req mapped =>
            have hread : (submitStC2hRead d k req).1.workList = [] :=
              (congrArg Prod.fst (submitStC2hRead_reqPart d k req)).trans hnil
            show (requestSubmit d k req mapped).1.workList = []
            unfold requestSubmit submitStC2hPend
            rw [if_pos hrx]
            simp only
            split_ifs
            · exact hnil
            · exact hread
            · exact hread
            · exact hread
        | packetRead k req =>
            exact (congrArg Prod.fst (reqPart_rxFrame.packetRead d k req)).trans hnil
        | packetWrite k req mapped =>
            have hc2h : d.conf.c2h = true := (Bool.and_eq_true _ _ ▸ hrx).2
            show (qdmaQueuePacketWrite d k req mapped).1.workList = []
            unfold qdmaQueuePacketWrite
            rw [if_pos (by rw [hc2h, Bool.or_true])]
            exact hnil
        | service budget fill =>
            show (qdmaDescqServiceWb d budget fill).workList = []
            unfold qdmaDescqServiceWb
            rw [if_pos hrx]
            exact processCompletion_workList hnil budget fill
    | wait k =>
        show (qdmaRequestWaitForCmpl d k).1.workList = []
        unfold qdmaRequestWaitForCmpl
        cases d.doneCb k with
        | none =>
            show d.workList.filter _ = []
            rw [hnil]
            rfl
        | some cb => exact hnil
    | pass =>
        show (wrkProcLoop d.workList d).workList = []
        rw [hnil]
        exact hnil
    | device wbCidx mem wbPidx page =>
        show (d.deviceWrites wbCidx mem wbPidx page).workList = []
        unfold Descq.deviceWrites
        simp only
        split_ifs <;> exact hnil

/-! ## Who makes work wakes the thread -/

/-- Of a writeback that does not wake the request thread there is no more work for it. -/
theorem qdmaThreadWrkPend_wb {d : Descq} (h : d.Orderly) (hwake : wbWakes d = false)
    (hp : 0 < qdmaThreadWrkPend (descqMmNH2cWb d)) : 0 < qdmaThreadWrkPend d := by
  unfold descqMmNH2cWb at hp
  by_cases hempty : d.pidx = d.cidx
  · rwa [if_pos hempty] at hp
  rw [if_neg hempty] at hp
  simp only at hp
  by_cases hnew : d.desc.wbCidx = d.cidx
  · rwa [if_pos hnew] at hp
  rw [if_neg hnew] at hp
  have hlists : (descqWbCredit d d.desc.wbCidx).1.workList = d.workList ∧
      (descqWbCredit d d.desc.wbCidx).1.pendList = d.pendList := by
    unfold descqWbCredit
    rw [if_neg hnew]
    exact ⟨rfl, rfl⟩
  have hloop := @reqUpdatePendLoop_workList (descqWbCredit d d.desc.wbCidx).1.pendList
    (u32 ((descqWbCredit d d.desc.wbCidx).2 + (descqWbCredit d d.desc.wbCidx).1.credit))
    (descqWbCredit d d.desc.wbCidx).1
    (by rw [hlists.1, hlists.2]; exact fun cb hcb => h.apart hcb)
  rw [hlists.1] at hloop
  -- what it leaves is a part of what was there, and there is room for it
  have hboth : (reqUpdatePend (descqWbCredit d d.desc.wbCidx).1
      (descqWbCredit d d.desc.wbCidx).2).workList ⊆ d.workList ∧
      (reqUpdatePend (descqWbCredit d d.desc.wbCidx).1 (descqWbCredit d d.desc.wbCidx).2).avail
        = (descqWbCredit d d.desc.wbCidx).1.avail := hloop
  generalize reqUpdatePend (descqWbCredit d d.desc.wbCidx).1
    (descqWbCredit d d.desc.wbCidx).2 = d' at hp hboth
  have hp' : 0 < qdmaThreadWrkPend d' := by
    split_ifs at hp
    · exact hp
    · exact hp
  obtain ⟨hav, cb, hcb, -⟩ := qdmaThreadWrkPend_pos hp'
  have hne : d.workList ≠ [] := List.ne_nil_of_mem (hboth.1 hcb)
  have hwakes : wbWakes d = true := by
    unfold wbWakes
    rw [hboth.2] at hav
    simp [hempty, hnew, hne, hav]
  rw [hwake] at hwakes
  cases hwakes

/-- **Whoever makes work for the request thread wakes it**, its own passes apart. -/
theorem qdmaThreadWrkPend_act {d : Descq} (h : d.Orderly) {a : QueueAct} (hadm : d.Admits a)
    (ha : a ≠ .pass) (hp : 0 < qdmaThreadWrkPend (d.act a)) :
    0 < qdmaThreadWrkPend d ∨ d.wakesWrk a ≠ .none := by
  -- on an ST C2H queue there never is any
  have hrx : d.isRx = false := by
    rw [← Bool.not_eq_true, ← isRx_act d a]
    exact fun hrx => qdmaThreadWrkPend_nil ((h.act hadm).rx hrx) hp
  cases a with
  | call c =>
      cases c with
      | submit k req mapped =>
          change 0 < qdmaThreadWrkPend (requestSubmit d k req mapped).1 at hp
          have hsig : (requestSubmit d k req mapped).2 = none →
              d.wakesWrk (.call (.submit k req mapped)) ≠ .none := by
            intro hnone
            show (if !d.isRx && (requestSubmit d k req mapped).2.isNone then Sleeper.Signal.later
              else .none) ≠ .none
            rw [hrx, hnone]
            decide
          unfold requestSubmit qdmaRequestSubmit at hp hsig
          rw [if_neg (by rw [hrx]; decide)] at hp hsig
          split_ifs at hp hsig
          · exact .inl hp
          · exact .inl hp
          · exact .inl hp
          · exact .inr (hsig rfl)
      | packetRead k req =>
          change 0 < qdmaThreadWrkPend (qdmaQueuePacketRead d k req).1 at hp
          unfold qdmaQueuePacketRead at hp
          have hno : (!d.conf.st || !d.conf.c2h) = true := by
            rw [← Bool.not_and, Bool.not_eq_true']
            exact hrx
          rw [if_pos hno] at hp
          exact .inl hp
      | packetWrite k req mapped =>
          change 0 < qdmaThreadWrkPend (qdmaQueuePacketWrite d k req mapped).1 at hp
          have hsig : 0 ≤ (qdmaQueuePacketWrite d k req mapped).2 →
              d.wakesWrk (.call (.packetWrite k req mapped)) ≠ .none := by
            intro hpos
            show (if 0 ≤ (qdmaQueuePacketWrite d k req mapped).2 then Sleeper.Signal.later
              else .none) ≠ .none
            rw [if_pos hpos]
            decide
          unfold qdmaQueuePacketWrite at hp hsig
          split_ifs at hp hsig
          · exact .inl hp
          · exact .inl hp
          · exact .inl hp
          · exact .inr (hsig (Int.natCast_nonneg _))
      | service budget fill =>
          change 0 < qdmaThreadWrkPend (qdmaDescqServiceWb d budget fill) at hp
          unfold qdmaDescqServiceWb at hp
          rw [if_neg (by rw [hrx]; decide)] at hp
          cases hw : wbWakes d with
          | false => exact .inl (qdmaThreadWrkPend_wb h hw hp)
          | true =>
              refine .inr ?_
              show (if !d.isRx && wbWakes d then Sleeper.Signal.now else .none) ≠ .none
              rw [hrx, hw]
              decide
  | wait k =>
      change 0 < qdmaThreadWrkPend (qdmaRequestWaitForCmpl d k).1 at hp
      unfold qdmaRequestWaitForCmpl at hp
      cases hk : d.doneCb k with
      | none =>
          rw [hk] at hp
          exact .inl (WrkPend.mono hp rfl (List.filter_subset_self ..))
      | some cb =>
          rw [hk] at hp
          exact .inl hp
  | pass => exact absurd rfl ha
  | device wbCidx mem wbPidx page =>
      change 0 < qdmaThreadWrkPend (d.deviceWrites wbCidx mem wbPidx page) at hp
      unfold Descq.deviceWrites at hp
      simp only at hp
      split_ifs at hp <;> exact .inl hp

/-- A call that puts no descriptors moves no request to `pend_list`. -/
theorem qdmaDescqProcSgtRequest_pendList {d : Descq} {cb : SgtReqCb}
    (h : d.avail = 0 ∨ (qdmaDescqProcSgtRequest d cb).2 ≠ 0) :
    (qdmaDescqProcSgtRequest d cb).1.pendList = d.pendList := by
  unfold qdmaDescqProcSgtRequest at h ⊢
  split_ifs at h ⊢
  · unfold descqMmProcRequest at h ⊢
    simp only at h ⊢
    by_cases h0 : d.avail = 0
    · rw [if_pos h0]
    · rw [if_neg h0] at h ⊢
      cases hres : resumeAt cb with
      | none => rfl
      | some p =>
          rw [hres] at h
          simp only at h ⊢
          have hfill := reqPart_fillFrame.mmFillSgl cb.id d.avail (cb.req.sgl.drop p.1) p.2
            { d := d, epAddr := u64 (cb.req.epAddr + cb.offset) }
          generalize mmFillSgl cb.id d.avail (cb.req.sgl.drop p.1) p.2
            { d := d, epAddr := u64 (cb.req.epAddr + cb.offset) } = f at hfill h
          cases hend : f.descEnd with
          | none => exact congrArg (·.2.1) hfill
          | some descEnd =>
              rw [hend] at h
              exact absurd rfl (h.resolve_left h0)
  · unfold descqProcStH2cRequest at h ⊢
    simp only at h ⊢
    by_cases h0 : d.avail = 0
    · rw [if_pos h0]
    · rw [if_neg h0] at h ⊢
      cases hres : resumeAt cb with
      | none => rfl
      | some p =>
          rw [hres] at h
          exact absurd rfl (h.resolve_left h0)
  · rfl

/-- A pass that puts no descriptors for any request finishes none of them. -/
theorem wrkProcLoop_pendList {cbs : List SgtReqCb} {d : Descq} (h : d.pendList = [])
    (hwake : wrkProcWakes cbs d = false) : (wrkProcLoop cbs d).pendList = [] := by
  induction cbs generalizing d with
  | nil => exact h
  | cons cb cbs ih =>
      rw [wrkProcLoop]
      rw [wrkProcWakes] at hwake
      have hproc : (decide (d.avail ≠ 0) && decide ((qdmaDescqProcSgtRequest d cb).2 = 0)) = false →
          (qdmaDescqProcSgtRequest d cb).1.pendList = d.pendList := by
        intro hno
        rw [Bool.and_eq_false_iff, decide_eq_false_iff_not, decide_eq_false_iff_not, not_not] at hno
        exact qdmaDescqProcSgtRequest_pendList hno
      generalize qdmaDescqProcSgtRequest d cb = p at hwake hproc ⊢
      obtain ⟨d', rv⟩ := p
      simp only [Bool.or_eq_false_iff] at hwake hproc ⊢
      have hd' : d'.pendList = [] := (hproc hwake.1).trans h
      have hnext : (if rv < 0 then qdmaSgtReqDone d' cb rv else d').pendList = [] := by
        split_ifs
        · exact List.eq_nil_of_subset_nil (hd' ▸ qdmaSgtReqDone_pendList d' cb rv)
        · exact hd'
      generalize (if rv < 0 then qdmaSgtReqDone d' cb rv else d') = d'' at hnext hwake ⊢
      split_ifs at hwake ⊢
      · exact hnext
      · exact ih hnext hwake.2

/-- The service of an ST C2H queue without requests goes through entries, and that is all. -/
theorem processCompletion_pendList {d : Descq} (hw : d.workList = []) (h : d.pendList = [])
    (budget : ℤ) (fill : ℕ → FillOutcome) :
    (descqProcessCompletionStC2h d budget fill).1.pendList = [] := by
  unfold descqProcessCompletionStC2h
  rw [hw, h]
  simp only
  by_cases hfp : d.conf.fpDescqC2hPacket.isNone = true
  · rw [if_pos (c := (d.conf.fpDescqC2hPacket.isNone && [].isEmpty && [].isEmpty) = true)
      (by rw [hfp]; rfl)]
    split_ifs <;> exact h
  have hloop := reqPart_loopFrame.procLoop (procBudget budget
    (ringIdxDelta d.descWrb.wbPidx d.cidxWrb d.conf.rngszWrb)) { d := d, pidx := d.pidx }
  have hfix := fixed_loopFrame.procLoop (procBudget budget
    (ringIdxDelta d.descWrb.wbPidx d.cidxWrb d.conf.rngszWrb)) { d := d, pidx := d.pidx }
  generalize procLoop (procBudget budget (ringIdxDelta d.descWrb.wbPidx d.cidxWrb
    d.conf.rngszWrb)) { d := d, pidx := d.pidx } = p at hloop hfix ⊢
  have hp : p.d.pendList = [] := (congrArg (·.2.1) hloop).trans h
  have hconf : p.d.conf = d.conf := congrArg Prod.fst hfix
  have hrefill : ∀ d' : Descq, (procRefill d' d.flq.pidxPend fill).pendList = d'.pendList :=
    fun d' => congrArg (·.2.1) (reqPart_rxFrame.procRefill d' d.flq.pidxPend fill)
  split_ifs
  · exact h
  · exact h
  · exact h
  · split
    · exact hp
    · unfold procEnd
      simp only [hconf]
      rw [if_neg hfp]
      split_ifs
      · show (procRefill _ _ _).pendList = []
        rw [hrefill]
        exact hp
      · exact hp

theorem descqMmNH2cWb_pendList {d : Descq} (h : d.pendList = []) :
    (descqMmNH2cWb d).pendList = [] := by
  have hcr : (descqWbCredit d d.desc.wbCidx).1.pendList = [] := by
    unfold descqWbCredit
    split_ifs <;> exact h
  have hup : ∀ (d' : Descq) credit, d'.pendList = [] → (reqUpdatePend d' credit).pendList = [] := by
    intro d' credit hd'
    unfold reqUpdatePend
    rw [hd']
    exact hd'
  unfold descqMmNH2cWb
  simp only
  split_ifs
  · exact h
  · exact h
  · exact hup _ _ hcr
  · exact hup _ _ hcr

/-- **Whoever makes work for the writeback thread wakes it.** -/
theorem qdmaThreadWbPend_act {d : Descq} (h : d.Orderly) {a : QueueAct}
    (hp : qdmaThreadWbPend (d.act a) = true) :
    qdmaThreadWbPend d = true ∨ d.wakesWb a ≠ .none := by
  rcases hd : d.pendList with - | ⟨c, cs⟩
  swap
  · exact .inl (by unfold qdmaThreadWbPend; rw [hd]; rfl)
  refine .inr ?_
  have hne : (d.act a).pendList ≠ [] := by
    intro hnil
    unfold qdmaThreadWbPend at hp
    rw [hnil] at hp
    cases hp
  cases a with
  | call c =>
      cases c with
      | submit k req mapped =>
          change (requestSubmit d k req mapped).1.pendList ≠ [] at hne
          have hsig : d.isRx = true → (requestSubmit d k req mapped).2 = none →
              d.wakesWb (.call (.submit k req mapped)) ≠ .none := by
            intro hrx hnone
            show (if d.isRx && (requestSubmit d k req mapped).2.isNone then Sleeper.Signal.later
              else .none) ≠ .none
            rw [hrx, hnone]
            decide
          have hread : (submitStC2hRead d k req).1.pendList = [] :=
            (congrArg (·.2.1) (submitStC2hRead_reqPart d k req)).trans hd
          cases hrx : d.isRx with
          | false =>
              unfold requestSubmit qdmaRequestSubmit at hne
              rw [if_neg (by rw [hrx]; decide)] at hne
              split_ifs at hne <;> exact absurd hd hne
          | true =>
              have hwake := hsig hrx
              unfold requestSubmit submitStC2hPend at hne hwake
              rw [if_pos hrx] at hne hwake
              simp only at hne hwake
              split_ifs at hne hwake
              · exact absurd hd hne
              · exact absurd hread hne
              · exact hwake rfl
              · exact absurd hread hne
      | packetRead k req =>
          exact absurd ((congrArg (·.2.1) (reqPart_rxFrame.packetRead d k req)).trans hd) hne
      | packetWrite k req mapped =>
          change (qdmaQueuePacketWrite d k req mapped).1.pendList ≠ [] at hne
          unfold qdmaQueuePacketWrite at hne
          split_ifs at hne <;> exact absurd hd hne
      | service budget fill =>
          change (qdmaDescqServiceWb d budget fill).pendList ≠ [] at hne
          unfold qdmaDescqServiceWb at hne
          split_ifs at hne with hrx
          · exact absurd (processCompletion_pendList (h.rx hrx) hd budget fill) hne
          · exact absurd (descqMmNH2cWb_pendList hd) hne
  | wait k =>
      change (qdmaRequestWaitForCmpl d k).1.pendList ≠ [] at hne
      unfold qdmaRequestWaitForCmpl at hne
      cases hk : d.doneCb k with
      | none =>
          rw [hk] at hne
          change d.pendList.filter _ ≠ [] at hne
          rw [hd] at hne
          exact absurd rfl hne
      | some cb =>
          rw [hk] at hne
          exact absurd hd hne
  | pass =>
      show (if wrkProcWakes d.workList d then Sleeper.Signal.now else .none) ≠ .none
      cases hw : wrkProcWakes d.workList d with
      | false => exact absurd (wrkProcLoop_pendList hd hw) hne
      | true => decide
  | device wbCidx mem wbPidx page =>
      change (d.deviceWrites wbCidx mem wbPidx page).pendList ≠ [] at hne
      unfold Descq.deviceWrites at hne
      simp only at hne
      split_ifs at hne <;> exact absurd hd hne

end Qdma
