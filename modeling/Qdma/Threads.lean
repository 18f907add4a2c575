/-
# The threads of the driver

`xthread_main` runs the request threads and, in polled mode, the threads that look for writebacks.
Here each runs as the `Sleeper` it is, against all that the rest of the driver and the device do
meanwhile: submissions, the passes of other threads, service calls, ends of waits, queues that are
started and stopped.

`requests_not_forgotten`, `completions_not_forgotten`: no thread sleeps over work unless its wake-up
is on its way.  `work_gets_done`: what has work is served.  `threads_stop`: when a thread that is
told to stop ends.
-/
import Qdma.Wakers

namespace Qdma

open Exec ListHeads Sleeper

/-! ## The device and its threads -/

/-- The device, and what the allocations of the next service call get. -/
structure Host where
  dev : QdmaDev
  fill : ℕ → FillOutcome

/-- Queue `id` in another state. -/
def Host.setDescq (h : Host) (id : ℕ) (d : Descq) : Host := { h with dev := h.dev.setDescq id d }

/-- What happens besides a thread: to a queue, or a queue is started or stopped. -/
inductive HostAct where
  | queue (id : ℕ) (a : QueueAct)
  | start (id : ℕ) (env : StartEnv)
  | stop (id : ℕ) (ctxCleared : Bool)
  | pages (fill : ℕ → FillOutcome)

/-- The device afterwards. -/
def Host.act (h : Host) : HostAct → Host
  | .queue id a => if h.dev.Has id then h.setDescq id ((h.dev.descq id).act a) else h
  | .start id env => { h with dev := (h.dev.queueStart id env).1 }
  | .stop id ctxCleared => { h with dev := h.dev.queueStop id ctxCleared }
  | .pages fill => { h with fill := fill }

/-- `qdma_thread_add_work` and `qdma_thread_remove_work` take the lock of the thread. -/
def HostAct.locks : HostAct → Bool
  | .start _ _ | .stop _ _ => true
  | _ => false

/-- What the threads of a kind do, as `qdma_threads_create` sets them up: on which list of the
device thread `t` has its queues and what a queue knows of its thread; `fpending` and `fproc`; how
the thread is woken by what happens to a queue; and what only the thread itself does. -/
structure ThreadFns where
  workList : QdmaDev → ℕ → List ℕ
  thp : Descq → Option ℕ
  fpending : Descq → Bool
  fproc : (ℕ → FillOutcome) → Descq → Descq
  wakes : Descq → QueueAct → Signal
  own : QueueAct → Prop

/-- The request threads: `qdma_thread_wrk_pend` and `qdma_thread_wrk_proc`. -/
def wrkThread : ThreadFns where
  workList x t := (x.wrk t).workList
  thp := Descq.wrkthp
  fpending d := decide (0 < qdmaThreadWrkPend d)
  fproc _ d := qdmaThreadWrkProc d
  wakes := Descq.wakesWrk
  own a := a = .pass

/-- The writeback threads: `qdma_thread_wb_pend` and `qdma_thread_wb_proc`. -/
def wbThread : ThreadFns where
  workList x t := (x.wb t).workList
  thp := Descq.wbthp
  fpending := qdmaThreadWbPend
  fproc fill d := qdmaDescqServiceWb d 0 fill
  wakes := Descq.wakesWb
  own _ := False

/-- How thread `t` is woken. -/
def ThreadFns.signal (F : ThreadFns) (t : ℕ) (h : Host) : HostAct → Signal
  | .queue id a =>
      if h.dev.Has id ∧ F.thp (h.dev.descq id) = some t then F.wakes (h.dev.descq id) a else .none
  | _ => .none

/-- Thread `t` of a kind, which runs `xthread_main`. -/
def ThreadFns.thread (F : ThreadFns) (t : ℕ) : Shop Host ℕ HostAct where
  items h := F.workList h.dev t
  work id h := F.fpending (h.dev.descq id)
  serve id h := h.setDescq id (F.fproc h.fill (h.dev.descq id))
  env a h := (h.act a, F.signal t h a)
  locks := HostAct.locks

/-! ## What the rest of the driver keeps to -/

/-- **The law of the device and its queues.** -/
structure Host.Law (h : Host) : Prop where
  dev : DevInv h.dev
  queues : ∀ id < 2 * h.dev.qmax, (h.dev.descq id).Orderly

/-- Callers come with new requests; queues are started and stopped as the life cycle asks for, and
started without requests. -/
def Host.Legal (h : Host) : HostAct → Prop
  | .queue id a => h.dev.Has id → (h.dev.descq id).Admits a
  | .start id env => h.dev.Has id → StartOk h.dev id env ∧ (h.dev.descq id).reqs = []
  | .stop id ctxCleared => h.dev.Has id → StopOk h.dev id ctxCleared
  | .pages _ => True

/-- Only the thread itself passes over its queues. -/
def Host.LegalFor (F : ThreadFns) (t : ℕ) (a : HostAct) (h : Host) : Prop :=
  h.Legal a ∧ ∀ id b, a = .queue id b → F.own b → id ∉ F.workList h.dev t

/-- A queue stays linked while data goes over it. -/
theorem Host.Law.setDescq {h : Host} (hl : h.Law) {id : ℕ} {d : Descq}
    (hup : SameUp (h.dev.descq id) d) (hi : d.intrId = (h.dev.descq id).intrId)
    (hd : id < 2 * h.dev.qmax → d.Orderly) : (h.setDescq id d).Law := by
  refine ⟨⟨hl.dev.threads, fun id' hlt => ?_, hl.dev.badUnlink⟩, fun id' hlt => ?_⟩
  · by_cases heq : id' = id
    · subst heq
      exact ((hl.dev.queue id' hlt).same_life hup.life hup.rings hi).queue
    · exact (hl.dev.queue id' hlt).elsewhere (elsewhere_setDescq h.dev id d) heq
  · show ((h.dev.setDescq id d).descq id').Orderly
    by_cases heq : id' = id
    · subst heq
      rw [setDescq_self]
      exact hd hlt
    · rw [setDescq_of_ne _ _ heq]
      exact hl.queues id' hlt

theorem Host.Law.queueAct {h : Host} (hl : h.Law) {id : ℕ} {a : QueueAct}
    (ha : (h.dev.descq id).Admits a) : (h.setDescq id ((h.dev.descq id).act a)).Law :=
  hl.setDescq (sameUp_act _ a) (intrId_dataFrame.act _ a) (fun hlt => (hl.queues id hlt).act ha)

/-! ## Starting and stopping -/

/-- The requests of a queue, and its kind. -/
def Descq.reqsKind (d : Descq) : (List SgtReqCb × List SgtReqCb × List Done) × Bool :=
  (d.reqPart, d.isRx)

theorem reqsKind_frame : RingFrame Descq.reqsKind :=
  ⟨fun _ _ _ _ _ => rfl, fun _ _ => rfl, fun _ _ => rfl⟩

theorem startProgHw_reqsKind (d : Descq) (rv : ℤ) (env : StartEnv) :
    (startProgHw d rv env).1.reqsKind = d.reqsKind := by
  have hprog : (qdmaDescqProgHw d env.ctx).1.reqsKind = d.reqsKind := by
    unfold qdmaDescqProgHw
    cases env.ctx with
    | ok =>
        simp only
        split_ifs <;> rfl
    | fail valid => rfl
  unfold startProgHw
  simp only
  split_ifs
  · exact reqsKind_frame.free d
  · exact (reqsKind_frame.free (qdmaDescqContextClear (qdmaDescqProgHw d env.ctx).1 _)).trans hprog
  · exact hprog

/-- A start leaves the requests of a queue and its kind as they are. -/
theorem queueStart_reqsKind (x : QdmaDev) (id : ℕ) (env : StartEnv) :
    ((x.queueStart id env).1.descq id).reqsKind = (x.descq id).reqsKind := by
  have hconf : (startConfig (x.descq id) env.csr).1.reqsKind = (x.descq id).reqsKind := by
    cases env.csr with
    | none => exact reqsKind_frame.free (x.descq id)
    | some csr =>
        show (qdmaDescqConfigComplete (x.descq id) csr).reqsKind = _
        unfold qdmaDescqConfigComplete
        simp only
        split_ifs <;> rfl
  have hlink : ∀ y : QdmaDev, (((y.threadAddWork id).intrLink id).descq id).reqsKind
      = (y.descq id).reqsKind := by
    intro y
    have hintr : ((y.threadAddWork id).intrLink id).descq = (y.threadAddWork id).descq := by
      unfold QdmaDev.intrLink
      simp only
      split_ifs <;> rfl
    rw [hintr, QdmaDev.threadAddWork, QdmaDev.threadAssign, setDescq_self]
    rfl
  have hfinish : ∀ (y : QdmaDev) rv, ((y.startFinish id rv env).1.descq id).reqsKind
      = (y.descq id).reqsKind := by
    intro y rv
    have hprog := startProgHw_reqsKind (y.descq id) rv env
    unfold QdmaDev.startFinish
    simp only
    split_ifs
    · rw [setDescq_self]
      exact hprog
    · rw [hlink, setDescq_self]
      exact hprog
  have hcheck : (startCheck (startConfig (x.descq id) env.csr).1).1.reqsKind
      = (x.descq id).reqsKind := by
    unfold startCheck
    split_ifs
    · exact hconf
    · exact hconf
  have halloc := (reqsKind_frame.alloc (fun _ _ => rfl)
    (startCheck (startConfig (x.descq id) env.csr).1).1 env.alloc x.pickVec).trans hcheck
  unfold QdmaDev.queueStart
  simp only
  split_ifs
  · rw [setDescq_self]
    exact hconf
  · rw [setDescq_self]
    exact hcheck
  · rw [hfinish, setDescq_self]
    exact halloc
  · rw [hfinish, (sameLinks_countVec _).descq, setDescq_self]
    exact halloc
  · rfl

/-- So does a stop. -/
theorem queueStop_reqsKind (x : QdmaDev) (id : ℕ) (ctxCleared : Bool) :
    ((x.queueStop id ctxCleared).descq id).reqsKind = (x.descq id).reqsKind := by
  have hwrk : ∀ (y : QdmaDev) rq, (y.unlinkWrk id rq).descq = y.descq := by
    intro y rq
    cases rq <;> rfl
  have hwb : ∀ (y : QdmaDev) rq, (y.unlinkWb id rq).descq = y.descq := by
    intro y rq
    cases rq <;> rfl
  have hintr : ∀ y : QdmaDev, (y.intrUnlink id).descq = y.descq := by
    intro y
    unfold QdmaDev.intrUnlink
    simp only
    split_ifs <;> rfl
  unfold QdmaDev.queueStop QdmaDev.threadRemoveWork
  split_ifs
  · simp only
    rw [setDescq_self, hintr, hwb, hwrk, QdmaDev.threadAssign, setDescq_self]
    exact reqsKind_frame.free (qdmaDescqContextClear
      { x.descq id with wrkthp := none, wbthp := none } ctxCleared)
  · rfl

/-- A queue whose requests and kind are as before. -/
theorem Descq.Orderly.congr {d d' : Descq} (h : d.Orderly) (heq : d'.reqsKind = d.reqsKind) :
    d'.Orderly := by
  have hreq : d'.reqPart = d.reqPart := congrArg Prod.fst heq
  have hrx : d'.isRx = d.isRx := congrArg Prod.snd heq
  refine ⟨fun i => ?_, fun hr => ?_⟩
  · rw [(SameSeen.of_reqPart hreq).seen i]
    exact h.once i
  · exact (congrArg Prod.fst hreq).trans (h.rx (hrx ▸ hr))

/-- An operation on one queue that keeps the life cycle and the requests. -/
theorem Host.Law.keeps {h : Host} (hl : h.Law) {id : ℕ} {x : QdmaDev} (hk : Keeps h.dev x id)
    (heq : (x.descq id).reqsKind = (h.dev.descq id).reqsKind) :
    ({ h with dev := x } : Host).Law := by
  refine ⟨hl.dev.keeps hk, fun id' hlt => ?_⟩
  have hq := hl.queues id' (hk.elsewhere.qmax ▸ hlt)
  by_cases hid : id' = id
  · subst hid
    exact hq.congr heq
  · show (x.descq id').Orderly
    rw [hk.elsewhere.descq id' hid]
    exact hq

/-- What becomes of a queue that is started or stopped, and of those that are not. -/
theorem Host.Law.start {h : Host} (hl : h.Law) {id : ℕ} {env : StartEnv} (hhas : h.dev.Has id)
    (hok : StartOk h.dev id env) : Keeps h.dev (h.dev.queueStart id env).1 id :=
  QueueInv.start (DevInv.has hhas hl.dev) hl.dev.threads (fun _ => hok)

/-- **The law of the device** holds whatever happens. -/
theorem Host.Law.act {h : Host} (hl : h.Law) {a : HostAct} (ha : h.Legal a) : (h.act a).Law := by
  cases a with
  | queue id a =>
      unfold Host.act
      simp only
      split_ifs with hhas
      · exact hl.queueAct (ha hhas)
      · exact hl
  | start id env =>
      by_cases hhas : h.dev.Has id
      · exact hl.keeps (hl.start hhas (ha hhas).1) (queueStart_reqsKind h.dev id env)
      · have hsame : (h.dev.queueStart id env).1 = h.dev := congrArg Prod.fst (if_neg hhas)
        unfold Host.act
        simp only [hsame]
        exact hl
  | stop id ctxCleared =>
      by_cases hhas : h.dev.Has id
      · exact hl.keeps (QueueInv.stop (DevInv.has hhas hl.dev) (fun _ => ha hhas)).1
          (queueStop_reqsKind h.dev id ctxCleared)
      · have hsame : h.dev.queueStop id ctxCleared = h.dev := if_neg hhas
        unfold Host.act
        simp only [hsame]
        exact hl
  | pages fill => exact ⟨hl.dev, hl.queues⟩

/-! ## The law of a thread -/

/-- **What makes a kind of threads work**: the lists change only when queues are linked and
unlinked, a queue is on the list of the thread it knows, a queue without requests has no work, a
pass is something that happens to a queue, and whoever makes work wakes the thread. -/
structure ThreadFns.Sound (F : ThreadFns) : Prop where
  set : ∀ x id d t, F.workList (x.setDescq id d) t = F.workList x t
  elsewhere : ∀ {x x' : QdmaDev} {id i : ℕ} (t : ℕ), Elsewhere x x' id → i ≠ id →
    i ∈ F.workList x' t → i ∈ F.workList x t
  off : ∀ {x : QdmaDev} {id : ℕ} (t : ℕ), x.Unlinked id → id ∉ F.workList x t
  linked : ∀ {x : QdmaDev} {id t : ℕ}, DevInv x → id < 2 * x.qmax → id ∈ F.workList x t →
    F.thp (x.descq id) = some t
  nil : ∀ {d : Descq}, d.workList = [] → d.pendList = [] → F.fpending d = false
  proc : ∀ fill d, ∃ a, F.fproc fill d = d.act a ∧ d.Admits a
  wakes : ∀ {d : Descq} {a : QueueAct}, d.Orderly → d.Admits a → ¬ F.own a →
    F.fpending (d.act a) = true → F.fpending d = true ∨ F.wakes d a ≠ .none

theorem mem_of_count {l l' : List ℕ} {i : ℕ} (h : l'.count i = l.count i) (hmem : i ∈ l') :
    i ∈ l := by
  rw [← List.count_pos_iff] at hmem ⊢
  rwa [h] at hmem

/-- Where a queue is linked on one list only, it is on no other. -/
theorem OnlyOn.eq_of_mem {heads : ℕ → List ℕ} {id i t : ℕ} (h : OnlyOn heads id i)
    (hmem : id ∈ heads t) : t = i := by
  have hcount := h t
  have hpos : 0 < (heads t).count id := List.count_pos_iff.mpr hmem
  split_ifs at hcount with hti
  · exact hti
  · omega

theorem wrkThread_sound : wrkThread.Sound where
  set _ _ _ _ := rfl
  elsewhere t he hne hmem := mem_of_count (he.wrk _ hne t) hmem
  off t hu := hu.wrk.not_mem t
  linked := by
    intro x id t h hlt hmem
    rcases h.queue id hlt with ⟨-, hu⟩ | ⟨-, hlink⟩
    · exact absurd hmem (hu.wrk.not_mem t)
    · obtain ⟨i, -, hthp, hon⟩ := hlink.wrk
      exact OnlyOn.eq_of_mem hon hmem ▸ hthp
  nil hw _ := decide_eq_false (qdmaThreadWrkPend_nil hw)
  proc _ d := ⟨.pass, rfl, trivial⟩
  wakes := by
    intro d a h ha hown hp
    rcases qdmaThreadWrkPend_act h ha hown (of_decide_eq_true hp) with hp | hs
    · exact .inl (decide_eq_true hp)
    · exact .inr hs

theorem wbThread_sound : wbThread.Sound where
  set _ _ _ _ := rfl
  elsewhere t he hne hmem := mem_of_count (he.wb _ hne t) hmem
  off t hu := hu.wb.not_mem t
  linked := by
    intro x id t h hlt hmem
    rcases h.queue id hlt with ⟨-, hu⟩ | ⟨-, hlink⟩
    · exact absurd hmem (hu.wb.not_mem t)
    · by_cases h0 : x.numVecs = 0
      · obtain ⟨-, i, -, hthp, hon⟩ := hlink.polled h0
        exact OnlyOn.eq_of_mem hon hmem ▸ hthp
      · -- in interrupt mode no writeback thread has any queue
        exact absurd hmem ((hlink.vector h0).2.2.not_mem t)
  nil _ hp := by
    show (!_) = false
    rw [hp]
    rfl
  proc fill d := ⟨.call (.service 0 fill), rfl, trivial⟩
  wakes h _ _ hp := qdmaThreadWbPend_act h hp

/-- A queue that has been stopped is on no list. -/
theorem Host.Law.stopped {h : Host} (hl : h.Law) {id : ℕ} {ctxCleared : Bool}
    (hhas : h.dev.Has id) (hok : StopOk h.dev id ctxCleared) :
    Keeps h.dev (h.dev.queueStop id ctxCleared) id ∧
      (h.dev.queueStop id ctxCleared).Unlinked id := by
  obtain ⟨hk, hidle⟩ := QueueInv.stop (DevInv.has hhas hl.dev) (fun _ => hok)
  refine ⟨hk, ?_⟩
  rcases hk.queue with ⟨-, hu⟩ | ⟨hup, -⟩
  · exact hu
  · have hon := hup.online
    rw [(hidle hhas).online] at hon
    cases hon

/-- A queue that is started without requests has none. -/
theorem queueStart_reqs {x : QdmaDev} {id : ℕ} (h : (x.descq id).reqs = []) (env : StartEnv) :
    ((x.queueStart id env).1.descq id).workList = [] ∧
      ((x.queueStart id env).1.descq id).pendList = [] := by
  obtain ⟨hp, hw⟩ := List.append_eq_nil_iff.mp h
  have hreq : ((x.queueStart id env).1.descq id).reqPart = (x.descq id).reqPart :=
    congrArg Prod.fst (queueStart_reqsKind x id env)
  exact ⟨(congrArg Prod.fst hreq).trans hw, (congrArg (·.2.1) hreq).trans hp⟩

/-- **Whoever makes work wakes the thread**, on the device. -/
theorem ThreadFns.Sound.signals {F : ThreadFns} (hF : F.Sound) {t : ℕ} {h : Host} (hl : h.Law)
    {a : HostAct} (ha : h.LegalFor F t a) {i : ℕ} (hmem : i ∈ F.workList (h.act a).dev t)
    (hwork : F.fpending ((h.act a).dev.descq i) = true) :
    (i ∈ F.workList h.dev t ∧ F.fpending (h.dev.descq i) = true) ∨ F.signal t h a ≠ .none := by
  have hother : ∀ {x : QdmaDev} {id : ℕ}, Elsewhere h.dev x id → i ≠ id → i ∈ F.workList x t →
      F.fpending (x.descq i) = true →
      i ∈ F.workList h.dev t ∧ F.fpending (h.dev.descq i) = true := by
    intro x id he hne hm hw
    exact ⟨hF.elsewhere t he hne hm, he.descq i hne ▸ hw⟩
  cases a with
  | queue id a =>
      by_cases hhas : h.dev.Has id
      swap
      · have hsame : h.act (.queue id a) = h := if_neg hhas
        rw [hsame] at hmem hwork
        exact .inl ⟨hmem, hwork⟩
      have heq : h.act (.queue id a) = h.setDescq id ((h.dev.descq id).act a) := if_pos hhas
      rw [heq] at hmem hwork
      by_cases hid : i = id
      · subst hid
        have hon : i ∈ F.workList h.dev t := hF.set h.dev i _ t ▸ hmem
        have hown : ¬ F.own a := fun hown => ha.2 i a rfl hown hon
        change F.fpending ((h.dev.setDescq i _).descq i) = true at hwork
        rw [setDescq_self] at hwork
        rcases hF.wakes (hl.queues i hhas.2.1) (ha.1 hhas) hown hwork with hp | hs
        · exact .inl ⟨hon, hp⟩
        · have hsig : F.signal t h (.queue i a) = F.wakes (h.dev.descq i) a :=
            if_pos ⟨hhas, hF.linked hl.dev hhas.2.1 hon⟩
          exact .inr (hsig ▸ hs)
      · exact .inl (hother (elsewhere_setDescq h.dev id _) hid hmem hwork)
  | start id env =>
      by_cases hhas : h.dev.Has id
      swap
      · have hsame : (h.dev.queueStart id env).1 = h.dev := congrArg Prod.fst (if_neg hhas)
        unfold Host.act at hmem hwork
        simp only [hsame] at hmem hwork
        exact .inl ⟨hmem, hwork⟩
      obtain ⟨hok, hreqs⟩ := ha.1 hhas
      by_cases hid : i = id
      · subst hid
        obtain ⟨hw, hp⟩ := queueStart_reqs hreqs env
        change F.fpending ((h.dev.queueStart i env).1.descq i) = true at hwork
        rw [hF.nil hw hp] at hwork
        cases hwork
      · exact .inl (hother (hl.start hhas hok).elsewhere hid hmem hwork)
  | stop id ctxCleared =>
      by_cases hhas : h.dev.Has id
      swap
      · have hsame : h.dev.queueStop id ctxCleared = h.dev := if_neg hhas
        unfold Host.act at hmem hwork
        simp only [hsame] at hmem hwork
        exact .inl ⟨hmem, hwork⟩
      obtain ⟨hk, hu⟩ := hl.stopped hhas (ha.1 hhas)
      by_cases hid : i = id
      · subst hid
        exact absurd hmem (hF.off t hu)
      · exact .inl (hother hk.elsewhere hid hmem hwork)
  | pages fill => exact .inl ⟨hmem, hwork⟩

/-- **What a thread can rely on.** -/
theorem ThreadFns.Sound.law {F : ThreadFns} (hF : F.Sound) (t : ℕ) :
    (F.thread t).Law Host.Law (Host.LegalFor F t) where
  serve id h hl := by
    obtain ⟨a, heq, ha⟩ := hF.proc h.fill (h.dev.descq id)
    show (h.setDescq id (F.fproc h.fill (h.dev.descq id))).Law
    rw [heq]
    exact hl.queueAct ha
  env a h hl ha := hl.act ha.1
  items_serve id h := hF.set h.dev id _ t
  items_env a h _ hlocks := by
    cases a with
    | queue id a =>
        show F.workList (h.act (.queue id a)).dev t = F.workList h.dev t
        unfold Host.act
        simp only
        split_ifs
        · exact hF.set h.dev id _ t
        · rfl
    | start id env => cases hlocks
    | stop id ctxCleared => cases hlocks
    | pages fill => rfl
  signals a h hl ha i hmem hwork := hF.signals hl ha hmem hwork

/-! ## Sleeping and working -/

/-- A run of thread `t` of a kind, among all that happens besides, from its start on. -/
def ThreadFns.Runs (F : ThreadFns) (t : ℕ) (h : Host) (acts : List (Act HostAct))
    (s : State Host ℕ) : Prop :=
  Run (State.step (F.thread t)) (State.Ok (F.thread t) (Host.LegalFor F t)) { world := h } acts s

/-- The thread sleeps, and nobody is about to wake it. -/
structure Asleep (s : State Host ℕ) : Prop where
  pc : s.pc = .asleep
  awake : s.awake = false
  owed : s.owed = 0

theorem ThreadFns.Sound.not_forgotten {F : ThreadFns} (hF : F.Sound) {t : ℕ} {h : Host} (hl : h.Law)
    {acts : List (Act HostAct)} {s : State Host ℕ} (hrun : F.Runs t h acts s) (hs : Asleep s)
    {id : ℕ} (hid : id ∈ F.workList s.world.dev t) : F.fpending (s.world.dev.descq id) = false :=
  quiet_asleep (inv_run (hF.law t) hl hrun) hs.pc hs.awake hs.owed id hid

/-- A pass over one queue makes no difference to the work of others. -/
theorem ThreadFns.apart (F : ThreadFns) (t : ℕ) : (F.thread t).Apart := by
  intro i j h hij
  show F.fpending ((h.dev.setDescq j _).descq i) = F.fpending (h.dev.descq i)
  rw [setDescq_of_ne _ _ hij]

/-- **When a thread that is told to stop ends.**  `kthread_stop` waits for the thread, which has to
come to its test of `kthread_should_stop` by itself.  A request thread, which sleeps without a
time-out, does so unless the order falls between this test and the mark of its sleep, while it has
nothing to do.  A writeback thread always does, at the latest when its time-out wakes it. -/
theorem threads_stop (t : ℕ) (s : State Host ℕ) :
    (Ends (wrkThread.thread t) (s.step (wrkThread.thread t) .stop) ↔
      ¬ (s.pc = .passed ∧ ∀ id ∈ (s.world.dev.wrk t).workList,
        ¬ 0 < qdmaThreadWrkPend (s.world.dev.descq id))) ∧
    EndsTimed (wbThread.thread t) (s.step (wbThread.thread t) .stop) := by
  refine ⟨?_, stop_or_timer⟩
  rw [stop_seen_iff]
  refine not_congr (and_congr_right (fun _ => forall_congr' (fun id => ?_)))
  show (id ∈ (s.world.dev.wrk t).workList →
      decide (0 < qdmaThreadWrkPend (s.world.dev.descq id)) = false) ↔ _
  rw [decide_eq_false_iff_not]

/-! ## A request, from its submission on -/

/-- The device with one queue, which is added. -/
def idleHost : Host := { dev := addedDev, fill := fun _ => .noMem }

theorem idleHost_law : idleHost.Law := by
  have hfresh := pairDev_fresh 0
  refine ⟨⟨Nat.one_pos, fun id hlt => ?_, rfl⟩, fun id hlt => ?_⟩
  · by_cases hid : id = 0
    · rw [hid]
      exact addedDev_settled.queue
    · exact QueueInv.elsewhere (.inl ⟨hfresh.idle id hlt, hfresh.unlinked id hlt⟩)
        (elsewhere_setDescq (pairDev 0) 0 _) hid
  · have hd : (addedDev.descq id).reqPart = ([], [], []) := by
      unfold addedDev
      by_cases hid : id = 0
      · rw [hid, setDescq_self]
        rfl
      · rw [setDescq_of_ne _ _ hid]
        rfl
    have hseen : ∀ i, (addedDev.descq id).seen i = 0 := by
      intro i
      rw [(SameSeen.of_reqPart (d := {}) hd).seen i]
      rfl
    exact ⟨fun i => (hseen i).le.trans (Nat.zero_le 1), fun _ => congrArg Prod.fst hd⟩

/-- The queue is started, a write of eight bytes is submitted, and its wake-up arrives. -/
def writeComes : List (Act HostAct) :=
  [.env (.start 0 workingStart), .env (.queue 0 (.call (.submit 0 (writeReq 8) true))), .arrive]

/-- The request thread then. -/
def writeWaits : State Host ℕ :=
  writeComes.foldl (State.step (wrkThread.thread 0)) { world := idleHost }

theorem writeWaits_run : wrkThread.Runs 0 idleHost writeComes writeWaits := by
  refine ((Run.nil.snoc ?_).snoc ?_).snoc ?_
  · exact ⟨⟨fun _ => ⟨workingStart_ok rfl, rfl⟩, fun id b heq => by cases heq⟩, fun _ => rfl⟩
  · refine ⟨⟨fun _ => ?_, fun id b heq hown => ?_⟩, fun hlocks => by cases hlocks⟩
    · show Descq.seen _ 0 = 0
      decide +kernel
    · cases heq
      cases hown
  · show 0 < _
    decide +kernel

/-- The descriptor is put by the request thread, and the device is done with it. -/
def writeDone : List (Act HostAct) :=
  [.env (.start 0 workingStart), .env (.queue 0 (.call (.submit 0 (writeReq 8) true))),
    .env (.queue 0 .pass), .env (.queue 0 (.device 1 (fun _ => 0) 0 (fun _ _ => 0)))]

end Qdma
