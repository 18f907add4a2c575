/-
# Standstill, in interrupt mode

The queues of a device with interrupts: no writeback thread looks at them, but the device raises the
vector of a queue for what it has reported, the handler of the vector schedules the work of its
queues, and `intr_work` takes notice of the reports.  Between any two of these anything may happen.

`interrupts_standstill` is what `standstill` is for polled mode.  Here the long request is no
exception: the interrupt comes whether or not a request waits for its end, and so the request thread
is woken.
-/
import Qdma.Dispatch
import Qdma.Standstill

namespace Qdma

open RingIndex Exec Sleeper

/-! ## Interrupts on their way -/

/-- Where the news of a queue are: the device has reported and not raised the vector since; the
vector was raised; `work` of the queue is scheduled; `intr_work` was called for it. -/
structure IrqLines where
  unraised : ℕ → Bool := fun _ => false
  raised : ℕ → Bool := fun _ => false
  scheduled : ℕ → Bool := fun _ => false
  running : ℕ → Bool := fun _ => false

/-- The queues and the interrupts. -/
structure IntrWorld where
  rig : ℕ → Rig
  lines : IrqLines := {}

/-- What can happen: a call on a queue or a step of its device, a report of the device, an interrupt
that is raised and one that is handled, work that is taken up and work that is done. -/
inductive IntrEvent where
  | call (id : ℕ) (d : Deed)
  | report (id c : ℕ)
  | raise (v : ℕ)
  | irq (v : ℕ)
  | take (id : ℕ)
  | intrWork (id : ℕ)

/-- What it is to a queue. -/
def IntrEvent.deed : IntrEvent → Option (ℕ × Deed)
  | .call id d => some (id, d)
  | .report id c => some (id, .drv (.hw c))
  | .intrWork id => some (id, .drv .wb)
  | .raise _ | .irq _ | .take _ => none

/-- A device, its interrupts, and those of its queues that are not ST C2H. -/
structure IntrMode where
  dev : QdmaDev
  conf : IrqConf
  queues : List ℕ

/-- What happens to the interrupts. -/
def IntrMode.lines (M : IntrMode) (l : IrqLines) : IntrEvent → IrqLines
  | .call _ _ => l
  | .report id _ => { l with unraised := Function.update l.unraised id true }
  | .raise v =>
      { l with
        raised := Function.update l.raised v true
        unraised := fun id => l.unraised id && decide ((M.dev.descq id).intrId ≠ v) }
  | .irq v =>
      { l with
        raised := Function.update l.raised v false
        scheduled := fun id => l.scheduled id ||
          decide (id ∈ interrupt M.dev M.conf (M.conf.vector v)) }
  | .take id =>
      { l with
        scheduled := Function.update l.scheduled id false
        running := Function.update l.running id true }
  | .intrWork id => { l with running := Function.update l.running id false }

/-- What happens to the queues. -/
def IntrEvent.rigs (rig : ℕ → Rig) (e : IntrEvent) : ℕ → Rig :=
  match e.deed with
  | some (id, d) => Function.update rig id ((rig id).step d)
  | none => rig

/-- The request threads over the queues.  In interrupt mode there are no others. -/
def IntrMode.crew (M : IntrMode) : Crew ℕ IntrWorld ℕ IntrEvent where
  items t _ := (M.dev.wrk t).workList.filter (· ∈ M.queues)
  work _ id w := decide (0 < qdmaThreadWrkPend (w.rig id).q)
  serve _ id := .call id (.drv .worker)
  event e w := { rig := e.rigs w.rig, lines := M.lines w.lines e }
  signal t e w :=
    match e.deed with
    | some (id, d) =>
        if (M.dev.descq id).wrkthp = some t then
          (((w.rig id).queueAct d).map (w.rig id).q.wakesWrk).getD .none
        else .none
    | none => .none
  locks _ _ := false

/-- A report, or notice taken of one. -/
def Deed.News : Deed → Prop
  | .drv (.hw _) | .drv .wb => True
  | _ => False

instance Deed.decidableNews (d : Deed) : Decidable d.News :=
  match d with
  | .drv (.hw _) | .drv .wb => inferInstanceAs (Decidable True)
  | .drv (.submit _ _) | .drv .worker | .drv (.wait _) | .exec | .outside _ =>
      inferInstanceAs (Decidable False)

/-- What may happen: calls and steps of the device; reports of what it has carried out; any
interrupt at any time; one that was raised is handled, work that is scheduled is taken up by one
worker at a time, and work taken up is done. -/
def IntrMode.Ok (M : IntrMode) (f : Floor ℕ IntrWorld ℕ) : CrewAct ℕ IntrEvent → Prop
  | .env (.call id d) =>
      id ∈ M.queues ∧ (f.world.rig id).Ok d ∧ ¬ d.Passes ∧ ¬ d.News
  | .env (.report id c) => id ∈ M.queues ∧ (f.world.rig id).Ok (.drv (.hw c))
  | .env (.irq v) => f.world.lines.raised v = true
  | .env (.take id) => f.world.lines.scheduled id = true ∧ f.world.lines.running id = false
  | .env (.intrWork id) => f.world.lines.running id = true
  | .arrive t => 0 < (f.hands t).owed
  | .env (.raise _) | .own _ | .poke _ | .stop _ => True

instance IntrMode.decidableOk (M : IntrMode) (f : Floor ℕ IntrWorld ℕ)
    (a : CrewAct ℕ IntrEvent) : Decidable (M.Ok f a) :=
  match a with
  | .env (.call _ _) => inferInstanceAs (Decidable (_ ∧ _ ∧ ¬ _ ∧ ¬ _))
  | .env (.report _ _) => inferInstanceAs (Decidable (_ ∧ _))
  | .env (.irq _) => inferInstanceAs (Decidable (_ = true))
  | .env (.take _) => inferInstanceAs (Decidable (_ ∧ _))
  | .env (.intrWork _) => inferInstanceAs (Decidable (_ = true))
  | .arrive _ => inferInstanceAs (Decidable (_ < _))
  | .env (.raise _) | .own _ | .poke _ | .stop _ => inferInstanceAs (Decidable True)

/-- The device was set up and its queues started, and the driver handles its interrupts itself. -/
structure IntrMode.Good (M : IntrMode) : Prop where
  inv : DirectInv M.dev M.conf.funcId
  up : ∀ id ∈ M.queues, id < 2 * M.dev.qmax ∧ (M.dev.descq id).online = true
  distinct : M.conf.Distinct M.dev.numVecs
  own : M.conf.topDev = false

/-! ## News reach a queue -/

/-- News of queue `id`, whose vector is `v`, are on their way. -/
def IrqLines.OnWay (l : IrqLines) (v id : ℕ) : Prop :=
  l.unraised id = true ∨ l.raised v = true ∨ l.scheduled id = true ∨ l.running id = true

/-- **No news are lost**: a report that no notice was taken of is on its way. -/
def IntrMode.Heard (M : IntrMode) (w : IntrWorld) (id : ℕ) : Prop :=
  (w.rig id).q.desc.wbCidx = (w.rig id).q.cidx ∨ w.lines.OnWay (M.dev.descq id).intrId id

/-- The law of the queues and the interrupts. -/
structure IntrMode.World (M : IntrMode) (w : IntrWorld) : Prop where
  lively : ∀ id ∈ M.queues, Lively (w.rig id)
  heard : ∀ id ∈ M.queues, M.Heard w id

/-- What is legal for a thread: calls and reports that may come, and no pass over its queues but its
own. -/
structure IntrMode.Legal (M : IntrMode) (t : ℕ) (e : IntrEvent) (w : IntrWorld) : Prop where
  ok : ∀ id d, e.deed = some (id, d) → id ∈ M.queues →
    (w.rig id).Ok d ∧ ((M.dev.descq id).wrkthp = some t → ¬ d.Passes)
  call : ∀ id d, e = .call id d → ¬ d.News

/-- Other calls bring no news. -/
theorem Lively.news {r : Rig} (h : Lively r) {d : Deed} (hok : r.Ok d) (hd : ¬ d.News) :
    (r.step d).q.cidx = r.q.cidx ∧ (r.step d).q.desc.wbCidx = r.q.desc.wbCidx := by
  cases d with
  | drv l =>
      cases l with
      | submit req mapped =>
          have hq : (r.step (.drv (.submit req mapped))).q
              = (qdmaRequestSubmit r.q r.sys.nreq req mapped).1 := submit_q _ _ _
          rw [hq]
          rcases requestSubmit_cases r.q r.sys.nreq req mapped with ⟨rv, heq⟩ | heq
          · rw [heq]
            exact ⟨rfl, rfl⟩
          · rw [heq]
            exact ⟨rfl, rfl⟩
      | worker =>
          obtain ⟨k, hk⟩ := wrkProc_extends h.rig.credit.ring
          exact ⟨hk.cidx, hk.wbCidx⟩
      | hw c => exact absurd trivial hd
      | wb => exact absurd trivial hd
      | wait id =>
          rw [(wait_eq hok).1]
          exact ⟨rfl, rfl⟩
  | exec => exact ⟨rfl, rfl⟩
  | outside f => exact ⟨rfl, rfl⟩

/-- `intr_work` takes notice of all that was reported. -/
theorem Lively.noticed {r : Rig} (h : Lively r) :
    (r.step (.drv .wb)).q.desc.wbCidx = (r.step (.drv .wb)).q.cidx := by
  have hring := h.rig.credit.ring
  rcases h.rig.credit.wb_eq h.rig.count.noWrap with ⟨h0, heq⟩ | ⟨-, heq⟩
  · have hq : (r.step (.drv .wb)).q = r.q := heq
    rw [hq]
    exact ((dist_eq_zero hring.cidx_lt hring.wb_lt).mp h0).symm
  · have hq : (r.step (.drv .wb)).q = r.q.settled := heq
    rw [hq]
    rfl

/-- The queue an event comes to. -/
theorem rigs_deed {rig : ℕ → Rig} {e : IntrEvent} {id : ℕ} {d : Deed}
    (he : e.deed = some (id, d)) : e.rigs rig = Function.update rig id ((rig id).step d) := by
  unfold IntrEvent.rigs
  rw [he]

/-- The other queues do not notice. -/
theorem rigs_other {rig : ℕ → Rig} {e : IntrEvent} {i : ℕ}
    (h : ∀ id d, e.deed = some (id, d) → i ≠ id) : e.rigs rig i = rig i := by
  unfold IntrEvent.rigs
  cases he : e.deed with
  | none => rfl
  | some p => exact Function.update_of_ne (h p.1 p.2 he) _ _

/-- The handler of the vector of a started queue schedules its work. -/
theorem IntrMode.Good.reaches {M : IntrMode} (h : M.Good) {id : ℕ} (hid : id ∈ M.queues) :
    id ∈ interrupt M.dev M.conf (M.conf.vector (M.dev.descq id).intrId) := by
  obtain ⟨hlt, hup⟩ := h.up id hid
  obtain ⟨hge, hvec⟩ := h.inv.vecs id hlt hup
  rw [h.inv.direct.dvec] at hge
  rw [interrupt_vector h.distinct hvec, if_pos ⟨h.own, hge⟩]
  refine List.count_pos_iff.mp ?_
  rw [h.inv.intrList hlt, if_pos ⟨hup, rfl⟩]
  exact Nat.one_pos

/-- **News stay on their way** until `intr_work` is done with the queue. -/
theorem IrqLines.OnWay.step {M : IntrMode} (hM : M.Good) {i : ℕ} (hi : i ∈ M.queues) {l : IrqLines}
    (h : l.OnWay (M.dev.descq i).intrId i) {e : IntrEvent} (he : e ≠ .intrWork i) :
    (M.lines l e).OnWay (M.dev.descq i).intrId i := by
  unfold IrqLines.OnWay at h ⊢
  cases e with
  | call id d => exact h
  | report id c =>
      simp only [IntrMode.lines, Function.update_apply]
      split_ifs
      · exact .inl rfl
      · exact h
  | raise v =>
      simp only [IntrMode.lines, Function.update_apply]
      by_cases hv : (M.dev.descq i).intrId = v
      · exact .inr (.inl (if_pos hv))
      · rw [if_neg hv, decide_eq_true hv, Bool.and_true]
        exact h
  | irq v =>
      simp only [IntrMode.lines, Function.update_apply, Bool.or_eq_true]
      by_cases hv : (M.dev.descq i).intrId = v
      · exact .inr (.inr (.inl (.inr (decide_eq_true (hv ▸ hM.reaches hi)))))
      · rw [if_neg hv]
        exact h.imp id (Or.imp id (Or.imp Or.inl id))
  | take id =>
      simp only [IntrMode.lines, Function.update_apply]
      split_ifs
      · exact .inr (.inr (.inr rfl))
      · exact h
  | intrWork id =>
      have hne : i ≠ id := fun hid => he (by rw [hid])
      simp only [IntrMode.lines, Function.update_of_ne hne]
      exact h

/-- **No news are lost**, whatever happens. -/
theorem IntrMode.World.heard_event {M : IntrMode} (hM : M.Good) {w : IntrWorld} (h : M.World w)
    {e : IntrEvent} (hok : ∀ id d, e.deed = some (id, d) → id ∈ M.queues → (w.rig id).Ok d)
    (hcall : ∀ id d, e = .call id d → ¬ d.News) {i : ℕ} (hi : i ∈ M.queues) :
    M.Heard (M.crew.event e w) i := by
  have hlive := h.lively i hi
  by_cases hwork : e = .intrWork i
  · refine .inl ?_
    show (e.rigs w.rig i).q.desc.wbCidx = (e.rigs w.rig i).q.cidx
    have hdeed : e.deed = some (i, .drv .wb) := by
      rw [hwork]
      rfl
    rw [rigs_deed hdeed, Function.update_self]
    exact hlive.noticed
  rcases h.heard i hi with heq | hway
  swap
  · exact .inr (hway.step hM hi hwork)
  by_cases hrep : ∃ c, e = .report i c
  · obtain ⟨c, rfl⟩ := hrep
    refine .inr (.inl ?_)
    show Function.update w.lines.unraised i true i = true
    rw [Function.update_self]
  -- the other events leave the ends of the queue where they are
  refine .inl ?_
  show (e.rigs w.rig i).q.desc.wbCidx = (e.rigs w.rig i).q.cidx
  by_cases hdeed : ∃ d, e.deed = some (i, d)
  · obtain ⟨d, hd⟩ := hdeed
    have hnews : ¬ d.News := by
      cases e with
      | call id d' =>
          cases hd
          exact hcall _ _ rfl
      | report id c =>
          cases hd
          exact absurd ⟨c, rfl⟩ hrep
      | intrWork id =>
          cases hd
          exact absurd rfl hwork
      | _ => cases hd
    obtain ⟨hc, hwb⟩ := hlive.news (hok i d hd hi) hnews
    rw [rigs_deed hd, Function.update_self, hc, hwb, heq]
  · rw [rigs_other (fun id d hd hid => hdeed ⟨d, by rw [hd, hid]⟩), heq]

/-- What is legal for a queue keeps the law of all. -/
theorem IntrMode.World.event {M : IntrMode} (hM : M.Good) {w : IntrWorld} (h : M.World w)
    {e : IntrEvent} (hok : ∀ id d, e.deed = some (id, d) → id ∈ M.queues → (w.rig id).Ok d)
    (hcall : ∀ id d, e = .call id d → ¬ d.News) : M.World (M.crew.event e w) := by
  refine ⟨fun i hi => ?_, fun i hi => h.heard_event hM hok hcall hi⟩
  show Lively (e.rigs w.rig i)
  by_cases hdeed : ∃ d, e.deed = some (i, d)
  · obtain ⟨d, hd⟩ := hdeed
    rw [rigs_deed hd, Function.update_self]
    exact (h.lively i hi).step (hok i d hd hi)
  · rw [rigs_other (fun id d hd hid => hdeed ⟨d, by rw [hd, hid]⟩)]
    exact h.lively i hi

/-! ## The law of the threads -/

/-- What is on the list of a request thread is its own. -/
theorem IntrMode.Good.mem_items {M : IntrMode} (hM : M.Good) {t id : ℕ} {w : IntrWorld}
    (h : id ∈ M.crew.items t w) : id ∈ M.queues ∧ (M.dev.descq id).wrkthp = some t := by
  obtain ⟨hmem, hin⟩ := List.mem_filter.mp h
  have hid : id ∈ M.queues := of_decide_eq_true hin
  obtain ⟨hlt, hup⟩ := hM.up id hid
  refine ⟨hid, ?_⟩
  rcases hM.inv.dev.queue id hlt with ⟨hidle, -⟩ | ⟨-, hlink⟩
  · rw [hidle.online] at hup
    cases hup
  · obtain ⟨i, -, hthp, hon⟩ := hlink.wrk
    rw [hthp]
    by_contra hne
    have hcount := hon t
    rw [if_neg (fun hti => hne (by rw [hti]))] at hcount
    exact List.count_eq_zero.mp hcount hmem

/-- A queue is on the list of its request thread. -/
theorem IntrMode.Good.items {M : IntrMode} (hM : M.Good) {t id : ℕ} (hid : id ∈ M.queues)
    (ht : (M.dev.descq id).wrkthp = some t) (w : IntrWorld) : id ∈ M.crew.items t w := by
  obtain ⟨hlt, hup⟩ := hM.up id hid
  refine List.mem_filter.mpr ⟨?_, decide_eq_true hid⟩
  rcases hM.inv.dev.queue id hlt with ⟨hidle, -⟩ | ⟨-, hlink⟩
  · rw [hidle.online] at hup
    cases hup
  · obtain ⟨i, -, hthp, hon⟩ := hlink.wrk
    cases hthp.symm.trans ht
    exact hon.mem

/-- **Whoever makes work wakes the thread**, on any queue. -/
theorem IntrMode.World.signals {M : IntrMode} (hM : M.Good) {w : IntrWorld} (h : M.World w)
    {t : ℕ} {e : IntrEvent} (hlegal : M.Legal t e w) {id : ℕ} (hid : id ∈ M.crew.items t w)
    (hwork : M.crew.work t id (M.crew.event e w) = true) :
    M.crew.work t id w = true ∨ M.crew.signal t e w ≠ .none := by
  obtain ⟨hin, ht⟩ := hM.mem_items hid
  have hpos : 0 < qdmaThreadWrkPend (e.rigs w.rig id).q := of_decide_eq_true hwork
  by_cases hdeed : ∃ d, e.deed = some (id, d)
  · obtain ⟨d, hd⟩ := hdeed
    rw [rigs_deed hd, Function.update_self] at hpos
    rcases (h.lively id hin).rig.wakesWrk ((hlegal.ok id d hd hin).2 ht) hpos with hold | hsig
    · exact .inl (decide_eq_true hold)
    · have hsignal : M.crew.signal t e w
          = (((w.rig id).queueAct d).map (w.rig id).q.wakesWrk).getD .none := by
        show (match e.deed with
          | some (id, d) =>
              if (M.dev.descq id).wrkthp = some t then
                (((w.rig id).queueAct d).map (w.rig id).q.wakesWrk).getD .none
              else .none
          | none => .none) = _
        rw [hd]
        exact if_pos ht
      exact .inr (hsignal ▸ hsig)
  · rw [rigs_other (fun id' d hd heq => hdeed ⟨d, by rw [hd, heq]⟩)] at hpos
    exact .inl (decide_eq_true hpos)

/-- A pass of a request thread is legal for the others. -/
theorem IntrMode.Good.serve_legal {M : IntrMode} (hM : M.Good) {t t' id : ℕ} (hne : t ≠ t')
    {w : IntrWorld} (hid : id ∈ M.crew.items t' w) : M.Legal t (M.crew.serve t' id) w := by
  have ht' := (hM.mem_items hid).2
  refine ⟨fun i d hd _ => ?_, fun i d hd => ?_⟩
  · cases hd
    refine ⟨trivial, fun ht => ?_⟩
    rw [ht', Option.some.injEq] at ht
    exact absurd ht.symm hne
  · cases hd
    exact fun hnews => hnews

/-- **What the request threads can rely on.** -/
theorem IntrMode.law {M : IntrMode} (hM : M.Good) : M.crew.Law M.World M.Legal where
  shop t :=
    { serve := fun id w h => h.event hM
        (fun i d hd _ => by
          cases hd
          trivial)
        (fun i d hd => by
          cases hd
          exact fun hnews => hnews)
      env := fun e w h hlegal => h.event hM (fun i d hd hi => (hlegal.ok i d hd hi).1) hlegal.call
      items_serve := fun id w => rfl
      items_env := fun e w _ _ => rfl
      signals := by
        intro e w h hlegal id hid hwork
        have hid' : id ∈ M.crew.items t w := hid
        rcases h.signals hM hlegal hid' hwork with hold | hsig
        · exact .inl ⟨hid', hold⟩
        · exact .inr hsig }
  serve t t' id w hne _ hid := ⟨hM.serve_legal hne hid, rfl⟩

/-- What may happen is legal for every thread. -/
theorem IntrMode.Ok.floor {M : IntrMode} {f : Floor ℕ IntrWorld ℕ} {a : CrewAct ℕ IntrEvent}
    (h : M.Ok f a) : f.Ok M.crew M.Legal a := by
  cases a with
  | env e =>
      refine fun t => ⟨⟨fun id d hd hid => ?_, fun id d hd => ?_⟩, fun hl => by cases hl⟩
      · cases e with
        | call id' d' =>
            cases hd
            exact ⟨h.2.1, fun _ => h.2.2.1⟩
        | report id' c =>
            cases hd
            exact ⟨h.2, fun _ hpass => hpass⟩
        | intrWork id' =>
            cases hd
            exact ⟨trivial, fun _ hpass => hpass⟩
        | _ => cases hd
      · cases hd
        exact h.2.2.2
  | arrive t => exact h
  | own t => trivial
  | poke t => trivial
  | stop t => trivial

/-! ## Standstill -/

/-- Nothing of queue `id`, whose vector is `v`, is on its way. -/
structure IrqLines.Still (l : IrqLines) (v id : ℕ) : Prop where
  unraised : l.unraised id = false
  raised : l.raised v = false
  scheduled : l.scheduled id = false
  running : l.running id = false

theorem IrqLines.Still.not_onWay {l : IrqLines} {v id : ℕ} (h : l.Still v id) :
    ¬ l.OnWay v id := by
  unfold IrqLines.OnWay
  rw [h.unraised, h.raised, h.scheduled, h.running]
  decide

/-- A queue just started has no news. -/
theorem Started.no_news {q : Descq} (h : Started q) : q.desc.wbCidx = q.cidx := by
  obtain ⟨hring, -, -, -, -, -, hpidx, -⟩ := h.spec
  have hwb := hring.wb_le
  rw [← hpidx, dist_self] at hwb
  exact ((dist_eq_zero hring.cidx_lt hring.wb_lt).mp (Nat.le_zero.mp hwb)).symm

/-- **Nothing is stuck, in interrupt mode.**  Where the request thread of a queue sleeps and nobody
is about to wake it, the device is idle, and its last report was followed by an interrupt that is
dealt with, every request was handed back. -/
theorem interrupts_standstill {M : IntrMode} (hM : M.Good) {rig : ℕ → Rig}
    (hrig : ∀ id ∈ M.queues, ∃ q m, Started q ∧ 2 ≤ q.conf.rngsz ∧ rig id = q.rig m)
    {acts : List (CrewAct ℕ IntrEvent)} {f : Floor ℕ IntrWorld ℕ}
    (hrun : Run (Floor.step M.crew) M.Ok { world := { rig := rig } } acts f) {id t : ℕ}
    (hid : id ∈ M.queues) (ht : (M.dev.descq id).wrkthp = some t) (hwrk : (f.hands t).AtRest)
    (hstill : f.world.lines.Still (M.dev.descq id).intrId id)
    (hdev : (f.world.rig id).DeviceIdle) : (f.world.rig id).AllBack := by
  have hworld : M.World { rig := rig } := by
    refine ⟨fun i hi => ?_, fun i hi => .inl ?_⟩
    · obtain ⟨q, m, hq, h2, heq⟩ := hrig i hi
      show Lively (rig i)
      rw [heq]
      exact hq.lively h2 m
    · obtain ⟨q, m, hq, h2, heq⟩ := hrig i hi
      show (rig i).q.desc.wbCidx = (rig i).q.cidx
      rw [heq]
      exact hq.no_news
  have hinv := Floor.inv_run (IntrMode.law hM) (fun _ _ ha => IntrMode.Ok.floor ha) hworld hrun
  have hlaw : M.World f.world := (hinv.each t).world
  have hlive := hlaw.lively id hid
  have hnowrk : ¬ 0 < qdmaThreadWrkPend (f.world.rig id).q := of_decide_eq_false
    (crew_at_rest hinv hwrk id (hM.items hid ht f.world))
  -- all reports were noticed, and so nothing is in flight
  have hat : (f.world.rig id).q.cidx = (f.world.rig id).q.pidx := by
    have heq := (hlaw.heard id hid).resolve_right hstill.not_onWay
    rw [← heq, hdev.reported, hdev.carried, hlive.rig.credit.ring.rung]
  have hwork : (f.world.rig id).q.workList = [] := by
    by_contra hne
    exact (hlive.room_of_even hat).ne' (hlive.rig.full_of_idle hnowrk hne)
  refine hlive.rig.allBack ?_
  rw [Descq.reqs, hlive.pend_of_even hat, hwork, List.append_nil]

/-- Queue 0 of `oneStarted`, on vector 1. -/
def oneVector : IntrMode := { dev := oneStarted, conf := fromForty, queues := [0] }

theorem oneVector_good : oneVector.Good where
  inv := DirectInv.run (pairDev_fresh 8) pairDev_direct oneStarted_run
  up id hid := by
    cases List.mem_singleton.mp hid
    exact ⟨by decide +kernel, by decide +kernel⟩
  distinct i _ j _ heq := Nat.add_left_cancel heq
  own := rfl

/-- The request thread passes over its queues and falls asleep. -/
def pass : List (CrewAct ℕ IntrEvent) := List.replicate 12 (.own 0)

/-- The device carries out `n` moves and reports `c`, and its interrupt is dealt with. -/
def served (n c : ℕ) : List (CrewAct ℕ IntrEvent) :=
  List.replicate n (.env (.call 0 .exec))
    ++ [.env (.report 0 c), .env (.raise 1), .env (.irq 1), .env (.take 0), .env (.intrWork 0)]

/-- A write longer than the ring, from end to end. -/
def longWrite : List (CrewAct ℕ IntrEvent) :=
  [.env (.call 0 (.drv (.submit threeEntries true))), .arrive 0] ++ pass ++ served 2 2 ++ pass
    ++ served 1 0

def afterLongWrite : Floor ℕ IntrWorld ℕ :=
  longWrite.foldl (Floor.step oneVector.crew)
    { world := { rig := fun _ => (startedSys false 4).q.rig numbered } }

/-- The same request waits for a time-out in polled mode. -/
theorem interrupts_standstill_long : (afterLongWrite.world.rig 0).AllBack :=
  interrupts_standstill (t := 0) oneVector_good
    (fun _ _ => ⟨_, _, started_startedSys false, by decide +kernel, rfl⟩)
    (Run.of_admits longWrite (by decide +kernel)) (List.mem_singleton.mpr rfl)
    (by decide +kernel) ⟨by rfl, by rfl, by rfl⟩ ⟨by rfl, by rfl, by rfl, by rfl⟩
    ⟨by decide +kernel, by decide +kernel⟩

end Qdma
