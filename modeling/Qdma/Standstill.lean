/-
# When everything stands still

Any number of queues on any number of request threads and writeback threads, with the devices and
the callers of the queues: a thread passes over its queues, and everybody is woken as the driver
wakes them.  `Rig.queueAct` says which of the calls a step of a queue is.

`standstill` is about the states in which the threads of a queue sleep, nobody is about to wake
them, and the device has carried out and reported all it was told of.  Then every request was handed
back, but for one case: a request with more entries than the ring has room for fills the ring, and
waits for the time-out of the writeback thread.
-/
import Qdma.Crew
import Qdma.Wakers
import Qdma.Progress

namespace Qdma

open RingIndex Exec JobLine Blocks Sleeper

/-! ## The queues and their threads -/

/-- The threads of the driver. -/
inductive ThreadId where
  | wrk (t : ℕ)
  | wb (t : ℕ)
  deriving DecidableEq

/-- The queues that are online, and the threads they were given to. -/
structure Layout where
  queues : List ℕ
  wrkthp : ℕ → ℕ
  wbthp : ℕ → ℕ

/-- What a step is to the queue. -/
def Rig.queueAct (r : Rig) : Deed → Option QueueAct
  | .drv (.submit req mapped) => some (.call (.submit r.sys.nreq req mapped))
  | .drv .worker => some .pass
  | .drv (.hw c) => some (.device c (fun _ => 0) 0 (fun _ _ => 0))
  | .drv .wb => some (.call (.service 0 (fun _ => .noMem)))
  | .drv (.wait id) => some (.wait id)
  | .exec | .outside _ => none

/-- The threads over the queues: `qdma_thread_wrk_pend` and `qdma_thread_wrk_proc`,
`qdma_thread_wb_pend` and `qdma_thread_wb_proc`. -/
def Layout.crew (L : Layout) : Crew ThreadId (ℕ → Rig) ℕ (ℕ × Deed) where
  items
    | .wrk t, _ => L.queues.filter (fun id => L.wrkthp id = t)
    | .wb t, _ => L.queues.filter (fun id => L.wbthp id = t)
  work
    | .wrk _, id, w => decide (0 < qdmaThreadWrkPend (w id).q)
    | .wb _, id, w => qdmaThreadWbPend (w id).q
  serve
    | .wrk _, id => (id, .drv .worker)
    | .wb _, id => (id, .drv .wb)
  event e w := Function.update w e.1 ((w e.1).step e.2)
  signal
    | .wrk t, e, w =>
        if L.wrkthp e.1 = t then (((w e.1).queueAct e.2).map (w e.1).q.wakesWrk).getD .none
        else .none
    | .wb t, e, w =>
        if L.wbthp e.1 = t then (((w e.1).queueAct e.2).map (w e.1).q.wakesWb).getD .none
        else .none
  locks _ _ := false

/-- A pass of a request thread. -/
def Deed.Passes : Deed → Prop
  | .drv .worker => True
  | _ => False

instance Deed.decidablePasses (d : Deed) : Decidable d.Passes :=
  match d with
  | .drv .worker => inferInstanceAs (Decidable True)
  | .drv (.submit _ _) | .drv (.hw _) | .drv .wb | .drv (.wait _) | .exec | .outside _ =>
      inferInstanceAs (Decidable False)

/-- What may happen to a queue; only its request thread passes over it. -/
def Layout.Legal (L : Layout) (t : ThreadId) (e : ℕ × Deed) (w : ℕ → Rig) : Prop :=
  e.1 ∈ L.queues → (w e.1).Ok e.2 ∧ (t = .wrk (L.wrkthp e.1) → ¬ e.2.Passes)

/-- The threads take their steps, wake-ups arrive, and besides the callers and the devices do what
they may. -/
def Layout.Ok (L : Layout) (f : Floor ThreadId (ℕ → Rig) ℕ) : CrewAct ThreadId (ℕ × Deed) → Prop
  | .env e => e.1 ∈ L.queues ∧ (f.world e.1).Ok e.2 ∧ ¬ e.2.Passes
  | .arrive t => 0 < (f.hands t).owed
  | .own _ | .poke _ | .stop _ => True

instance Layout.decidableOk (L : Layout) (f : Floor ThreadId (ℕ → Rig) ℕ)
    (a : CrewAct ThreadId (ℕ × Deed)) : Decidable (L.Ok f a) :=
  match a with
  | .env _ => inferInstanceAs (Decidable (_ ∧ _ ∧ ¬ _))
  | .arrive _ => inferInstanceAs (Decidable (_ < _))
  | .own _ | .poke _ | .stop _ => inferInstanceAs (Decidable True)

/-- The law of the queues. -/
def Layout.World (L : Layout) (w : ℕ → Rig) : Prop := ∀ id ∈ L.queues, Lively (w id)

/-- The device has carried out and reported all it was told of. -/
structure Rig.DeviceIdle (r : Rig) : Prop where
  carried : r.exe = r.q.regs.pidx
  reported : r.q.desc.wbCidx = r.exe

/-- The request that is being served has more entries than the ring has room for, and fills it; the
next call for writebacks will find room and wake the request thread. -/
structure Rig.Overlong (r : Rig) : Prop where
  pend : r.q.pendList = []
  full : r.q.avail = 0
  long : ∃ cb rest, r.q.workList = cb :: rest ∧ r.q.conf.rngsz - 1 < cb.req.sgcnt
  wakes : wbWakes r.q = true

/-! ## A queue as its threads see it -/

/-- A request is seen once on a queue if it was queued, and not at all otherwise. -/
theorem RigInv.seen {r : Rig} (h : RigInv r) (i : ℕ) : r.q.seen i = r.sys.queued.count i := by
  rw [← h.fifo.order, Descq.seen, Descq.listed, Descq.completed, Descq.reqs, List.map_append,
    List.map_append, List.map_map, List.count_append, List.count_append]
  show _ = (r.q.finished.map (fun f => f.cb.id)).count i + _
  omega

theorem RigInv.isRx {r : Rig} (h : RigInv r) : r.q.isRx = false := h.credit.ring.kind

theorem RigInv.orderly {r : Rig} (h : RigInv r) : r.q.Orderly := by
  refine ⟨fun i => ?_, fun hrx => ?_⟩
  · rw [h.seen i]
    exact List.nodup_iff_count_le_one.mp
      (h.count.run.rising.imp (fun hlt => Nat.ne_of_lt hlt)) i
  · rw [h.isRx] at hrx
    cases hrx

/-- A step of the system is to the queue what it stands for. -/
theorem RigInv.step_q {r : Rig} (h : RigInv r) (d : Deed) :
    (r.step d).q = ((r.queueAct d).map r.q.act).getD r.q := by
  have hrx := h.isRx
  cases d with
  | drv l =>
      cases l with
      | submit req mapped =>
          have hq : (r.step (.drv (.submit req mapped))).q
              = (qdmaRequestSubmit r.q r.sys.nreq req mapped).1 := submit_q _ _ _
          have hact : r.q.act (.call (.submit r.sys.nreq req mapped))
              = (requestSubmit r.q r.sys.nreq req mapped).1 := rfl
          rw [hq]
          show _ = r.q.act (.call (.submit r.sys.nreq req mapped))
          rw [hact, requestSubmit, hrx]
          rfl
      | worker => rfl
      | hw c =>
          show _ = r.q.deviceWrites c _ _ _
          unfold Descq.deviceWrites
          have hrx' : ({ r.q with desc := { r.q.desc with wbCidx := c } } : Descq).isRx = false :=
            hrx
          simp only [hrx', Bool.false_eq_true, if_false]
          rfl
      | wb =>
          show _ = qdmaDescqServiceWb r.q 0 _
          unfold qdmaDescqServiceWb
          rw [hrx]
          rfl
      | wait id => rfl
  | exec => rfl
  | outside f => rfl

/-- A new request was not seen before. -/
theorem RigInv.admits {r : Rig} (h : RigInv r) {d : Deed} {a : QueueAct}
    (ha : r.queueAct d = some a) : r.q.Admits a := by
  cases d with
  | drv l =>
      cases l with
      | submit req mapped =>
          cases ha
          show r.q.seen r.sys.nreq = 0
          rw [h.seen, List.count_eq_zero]
          exact fun hin => Nat.lt_irrefl _ (h.count.run.fresh _ hin)
      | _ => cases ha; trivial
  | exec => cases ha
  | outside f => cases ha

/-- **Whoever makes work for the request thread** wakes it. -/
theorem RigInv.wakesWrk {r : Rig} (h : RigInv r) {d : Deed} (hd : ¬ d.Passes)
    (hwork : 0 < qdmaThreadWrkPend (r.step d).q) :
    0 < qdmaThreadWrkPend r.q ∨ ((r.queueAct d).map r.q.wakesWrk).getD .none ≠ .none := by
  rw [h.step_q] at hwork
  cases hact : r.queueAct d with
  | none =>
      rw [hact] at hwork
      exact .inl hwork
  | some a =>
      rw [hact] at hwork
      refine qdmaThreadWrkPend_act h.orderly (h.admits hact) ?_ hwork
      intro hpass
      subst hpass
      cases d with
      | drv l => cases l <;> first | exact hd trivial | cases hact
      | exec => cases hact
      | outside f => cases hact

/-- **Whoever makes work for the writeback thread** wakes it. -/
theorem RigInv.wakesWb {r : Rig} (h : RigInv r) {d : Deed}
    (hwork : qdmaThreadWbPend (r.step d).q = true) :
    qdmaThreadWbPend r.q = true ∨ ((r.queueAct d).map r.q.wakesWb).getD .none ≠ .none := by
  rw [h.step_q] at hwork
  cases hact : r.queueAct d with
  | none =>
      rw [hact] at hwork
      exact .inl hwork
  | some a =>
      rw [hact] at hwork
      exact qdmaThreadWbPend_act h.orderly hwork

/-! ## The law of the threads -/

/-- What is legal for a queue keeps the law of all. -/
theorem Layout.World.event {L : Layout} {w : ℕ → Rig} (h : L.World w) {e : ℕ × Deed}
    (hok : e.1 ∈ L.queues → (w e.1).Ok e.2) : L.World (L.crew.event e w) := by
  intro id hid
  show Lively (Function.update w e.1 ((w e.1).step e.2) id)
  by_cases heq : id = e.1
  · subst heq
    rw [Function.update_self]
    exact (h _ hid).step (hok hid)
  · rw [Function.update_of_ne heq]
    exact h id hid

/-- What is on the list of a thread is online, and its own. -/
theorem Layout.mem_items {L : Layout} {t : ThreadId} {w : ℕ → Rig} {id : ℕ}
    (h : id ∈ L.crew.items t w) :
    id ∈ L.queues ∧ (t = .wrk (L.wrkthp id) ∨ t = .wb (L.wbthp id)) := by
  cases t with
  | wrk t =>
      obtain ⟨hmem, ht⟩ := List.mem_filter.mp h
      exact ⟨hmem, .inl (by rw [of_decide_eq_true ht])⟩
  | wb t =>
      obtain ⟨hmem, ht⟩ := List.mem_filter.mp h
      exact ⟨hmem, .inr (by rw [of_decide_eq_true ht])⟩

/-- A pass of a thread may always be made. -/
theorem Layout.serve_ok (L : Layout) (t : ThreadId) (id : ℕ) (r : Rig) :
    r.Ok (L.crew.serve t id).2 := by
  cases t <;> trivial

/-- **Whoever makes work wakes the thread**, on any queue. -/
theorem Layout.World.signals {L : Layout} {w : ℕ → Rig} (h : L.World w) {t : ThreadId}
    {e : ℕ × Deed} (hlegal : L.Legal t e w) {id : ℕ} (hid : id ∈ L.crew.items t w)
    (hwork : L.crew.work t id (L.crew.event e w) = true) :
    L.crew.work t id w = true ∨ L.crew.signal t e w ≠ .none := by
  obtain ⟨i, d⟩ := e
  by_cases hne : id = i
  · subst hne
    have hstep : L.crew.event (id, d) w id = (w id).step d := Function.update_self ..
    have hin := (Layout.mem_items hid).1
    have hrig := (h id hin).rig
    cases t with
    | wrk t =>
        have ht : L.wrkthp id = t := of_decide_eq_true (List.mem_filter.mp hid).2
        have hpos : 0 < qdmaThreadWrkPend (L.crew.event (id, d) w id).q := of_decide_eq_true hwork
        rw [hstep] at hpos
        rcases hrig.wakesWrk ((hlegal hin).2 (by rw [ht])) hpos with hold | hsig
        · exact .inl (decide_eq_true hold)
        · have hsignal : L.crew.signal (.wrk t) (id, d) w
              = (((w id).queueAct d).map (w id).q.wakesWrk).getD .none := if_pos ht
          exact .inr (hsignal ▸ hsig)
    | wb t =>
        have ht : L.wbthp id = t := of_decide_eq_true (List.mem_filter.mp hid).2
        have hpos : qdmaThreadWbPend (L.crew.event (id, d) w id).q = true := hwork
        rw [hstep] at hpos
        rcases hrig.wakesWb hpos with hold | hsig
        · exact .inl hold
        · have hsignal : L.crew.signal (.wb t) (id, d) w
              = (((w id).queueAct d).map (w id).q.wakesWb).getD .none := if_pos ht
          exact .inr (hsignal ▸ hsig)
  · have hstep : L.crew.event (i, d) w id = w id := Function.update_of_ne hne _ _
    have hsame : L.crew.work t id (L.crew.event (i, d) w) = L.crew.work t id w := by
      cases t with
      | wrk t => exact congrArg (fun r : Rig => decide (0 < qdmaThreadWrkPend r.q)) hstep
      | wb t => exact congrArg (fun r : Rig => qdmaThreadWbPend r.q) hstep
    exact .inl (hsame ▸ hwork)

/-- **What the threads can rely on.** -/
theorem Layout.law (L : Layout) : L.crew.Law L.World L.Legal where
  shop t :=
    { serve := fun id w h => h.event (fun _ => L.serve_ok t id _)
      env := fun e w h hlegal => h.event (fun hin => (hlegal hin).1)
      items_serve := fun id w => by cases t <;> rfl
      items_env := fun e w _ _ => by cases t <;> rfl
      signals := by
        intro e w h hlegal id hid hwork
        have hid' : id ∈ L.crew.items t w := by cases t <;> exact hid
        rcases h.signals hlegal hid' hwork with hold | hsig
        · exact .inl ⟨hid', hold⟩
        · exact .inr hsig }
  serve t t' id w hne _ hid := by
    have hmem := (Layout.mem_items hid).2
    refine ⟨fun _ => ⟨L.serve_ok t' id _, fun ht hd => ?_⟩, rfl⟩
    rcases hmem with hwrk | hwb
    · rw [hwrk] at ht hne
      exact hne ht
    · rw [hwb] at hd
      exact hd

/-- What may happen is legal for every thread. -/
theorem Layout.Ok.floor {L : Layout} {f : Floor ThreadId (ℕ → Rig) ℕ}
    {a : CrewAct ThreadId (ℕ × Deed)} (h : L.Ok f a) : f.Ok L.crew L.Legal a := by
  cases a with
  | env e => exact fun t => ⟨fun _ => ⟨h.2.1, fun _ => h.2.2⟩, fun hl => by cases hl⟩
  | arrive t => exact h
  | own t => trivial
  | poke t => trivial
  | stop t => trivial

/-! ## Standstill -/

/-- A request that is not done waits for descriptors. -/
theorem RigInv.full_of_idle {r : Rig} (h : RigInv r) (hno : ¬ 0 < qdmaThreadWrkPend r.q)
    (hw : r.q.workList ≠ []) : r.q.avail = 0 := by
  obtain ⟨cb, rest, hw⟩ := List.exists_cons_of_ne_nil hw
  have hmem : cb ∈ r.q.workList := hw ▸ List.mem_cons_self ..
  by_contra h0
  refine hno (pos_qdmaThreadWrkPend h0 hmem ?_)
  rcases (h.credit.atEntry cb hmem).more with h1 | h1
  · rw [h1]
    exact Nat.eq_zero_or_pos _
  · exact .inr h1

/-- Credits that are due for a writeback make room. -/
theorem RigInv.room_of_news {r : Rig} (h : RigInv r) (hne : r.q.desc.wbCidx ≠ r.q.cidx) :
    (descqWbCredit r.q r.q.desc.wbCidx).1.avail ≠ 0 := by
  have hring := h.credit.ring
  have hc := hring.cidx_lt
  unfold descqWbCredit
  rw [if_neg hne]
  simp only
  split_ifs <;> omega

/-- A queue with a request that waits for descriptors while the device is idle. -/
theorem Lively.overlong {r : Rig} (h : Lively r) (hpend : r.q.pendList = [])
    (hfull : r.q.avail = 0) (hw : r.q.workList ≠ []) (hdev : r.DeviceIdle) : r.Overlong := by
  obtain ⟨cb, rest, hwork⟩ := List.exists_cons_of_ne_nil hw
  have hring := h.rig.credit.ring
  have havail := hring.avail
  have htwo := h.two_le
  have hne : r.q.pidx ≠ r.q.cidx := by
    intro heq
    rw [heq, dist_self] at havail
    omega
  have hnews : r.q.desc.wbCidx ≠ r.q.cidx := by
    rw [hdev.reported, hdev.carried, hring.rung]
    exact hne
  -- all descriptors in flight are those of the request that is being served
  have howed : r.q.owed.length = cb.descNr := by
    unfold Descq.owed Descq.reqs
    rw [hpend, List.nil_append, hwork, slots_cons, h.rig.credit.slots_tail hwork, List.append_nil,
      List.length_replicate]
  have hlen := h.rig.credit.length_owed
  have hmore := (h.rig.fifo.partway cb (hwork ▸ List.mem_cons_self ..)).more
  refine ⟨hpend, hfull, ⟨cb, rest, hwork, by omega⟩, ?_⟩
  unfold wbWakes
  rw [decide_eq_true hne, decide_eq_true hnews, decide_eq_true (h.rig.room_of_news hnews), hwork]
  rfl

/-- **Nothing is stuck.**  Where the threads of a queue sleep and nobody is about to wake them, and
the device is idle, every request was handed back, unless one of them is longer than the ring; the
time-out of the writeback thread then goes on with it. -/
theorem standstill {L : Layout} {w : ℕ → Rig}
    (hw : ∀ id ∈ L.queues, ∃ q m, Started q ∧ 2 ≤ q.conf.rngsz ∧ w id = q.rig m)
    {acts : List (CrewAct ThreadId (ℕ × Deed))} {f : Floor ThreadId (ℕ → Rig) ℕ}
    (hrun : Run (Floor.step L.crew) L.Ok { world := w } acts f) {id : ℕ} (hid : id ∈ L.queues)
    (hwrk : (f.hands (.wrk (L.wrkthp id))).AtRest)
    (hwb : (f.hands (.wb (L.wbthp id))).AtRest) (hdev : (f.world id).DeviceIdle) :
    (f.world id).AllBack ∨ (f.world id).Overlong := by
  have hworld : L.World w := by
    intro i hi
    obtain ⟨q, m, hq, h2, heq⟩ := hw i hi
    rw [heq]
    exact hq.lively h2 m
  have hinv := Floor.inv_run L.law (fun _ _ ha => Layout.Ok.floor ha) hworld hrun
  have hlive : Lively (f.world id) := (hinv.each (.wrk 0)).world id hid
  have hnowrk : ¬ 0 < qdmaThreadWrkPend (f.world id).q := of_decide_eq_false
    (crew_at_rest hinv hwrk id (List.mem_filter.mpr ⟨hid, decide_eq_true rfl⟩))
  have hnowb : qdmaThreadWbPend (f.world id).q = false :=
    crew_at_rest hinv hwb id (List.mem_filter.mpr ⟨hid, decide_eq_true rfl⟩)
  have hpend : (f.world id).q.pendList = [] := by
    unfold qdmaThreadWbPend at hnowb
    rw [Bool.not_eq_false', List.isEmpty_iff] at hnowb
    exact hnowb
  by_cases hwork : (f.world id).q.workList = []
  · refine .inl (hlive.rig.allBack ?_)
    rw [Descq.reqs, hpend, hwork, List.append_nil]
  · exact .inr (hlive.overlong hpend (hlive.rig.full_of_idle hnowrk hwork) hwork hdev)

/-- One queue with its two threads. -/
def oneQueue : Layout := { queues := [0], wrkthp := fun _ => 0, wbthp := fun _ => 0 }

/-- A thread takes its next steps. -/
def steps (n : ℕ) (t : ThreadId) : List (CrewAct ThreadId (ℕ × Deed)) := List.replicate n (.own t)

/-- A request is submitted and its wake-up arrives; the request thread passes over the queue and
falls asleep, the device does what it was told and reports it, and the writeback thread finds that
and falls asleep. -/
def writeThrough (req : Request) (n : ℕ) : List (CrewAct ThreadId (ℕ × Deed)) :=
  [.env (0, .drv (.submit req true)), .arrive (.wrk 0)] ++ steps 12 (.wrk 0)
    ++ List.replicate n (.env (0, .exec)) ++ [.env (0, .drv (.hw n))] ++ steps 12 (.wb 0)

/-- The queue and its threads after that. -/
def afterWrite (req : Request) (n : ℕ) : Floor ThreadId (ℕ → Rig) ℕ :=
  (writeThrough req n).foldl (Floor.step oneQueue.crew)
    { world := fun _ => (startedSys false 4).q.rig numbered }

theorem afterWrite_run (req : Request) (n : ℕ)
    (h : admits (Floor.step oneQueue.crew) oneQueue.Ok
      { world := fun _ => (startedSys false 4).q.rig numbered } (writeThrough req n) = true) :
    Run (Floor.step oneQueue.crew) oneQueue.Ok
      { world := fun _ => (startedSys false 4).q.rig numbered } (writeThrough req n)
      (afterWrite req n) := Run.of_admits _ h

theorem standstill_write : ((afterWrite (writeReq 8) 1).world 0).AllBack := by
  have hrun := afterWrite_run (writeReq 8) 1 (by decide +kernel)
  have hstand := standstill (L := oneQueue)
    (fun _ _ => ⟨_, _, started_startedSys false, by decide +kernel, rfl⟩) hrun
    (List.mem_singleton.mpr rfl : 0 ∈ oneQueue.queues)
    ⟨by rfl, by rfl, by rfl⟩ ⟨by rfl, by rfl, by rfl⟩ ⟨by decide +kernel, by decide +kernel⟩
  refine hstand.resolve_right (fun hlong => ?_)
  have hfull := hlong.full
  revert hfull
  decide +kernel

/-- A write of three entries on a ring with room for two. -/
def threeEntries : Request :=
  { writeReq 24 with
    sgl := [⟨1, 0, 8, 4096⟩, ⟨2, 0, 8, 8192⟩, ⟨3, 0, 8, 12288⟩]
    sgcnt_lt := by decide }

/-- It does wait for the time-out: the threads sleep, and the device is idle. -/
theorem overlong_stands :
    ∃ acts f, Run (Floor.step oneQueue.crew) oneQueue.Ok
        { world := fun _ => (startedSys false 4).q.rig numbered } acts f ∧
      (f.hands (.wrk 0)).AtRest ∧ (f.hands (.wb 0)).AtRest ∧ (f.world 0).DeviceIdle ∧
      (f.world 0).Overlong := by
  refine ⟨_, _, afterWrite_run threeEntries 2 (by decide +kernel),
    ⟨by rfl, by rfl, by rfl⟩, ⟨by rfl, by rfl, by rfl⟩, ⟨by decide +kernel, by decide +kernel⟩, ?_⟩
  refine ⟨List.isEmpty_iff.mp (by decide +kernel), by decide +kernel, ⟨_, [], rfl, ?_⟩,
    by decide +kernel⟩
  decide +kernel

end Qdma
