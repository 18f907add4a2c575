/-
# The mode of a queue pair

`qdma_queue_add` looks at the other queue of the pair in one section of its lock, takes its own
queue in another and writes the configuration, with the mode, without any; meanwhile other calls
add, configure and remove queues.  Here a call is under way until it returns, and takes one step
at a time, each a section under a queue's lock or between two of them.

The steps are moves of the view of the pairs, and `pair_modes` says in which runs both queues of a
pair have one mode and no queue is handed out twice.  Alone, a call does what the device's model
of it does (`add_alone`).
-/
import Qdma.Counters
import Qdma.PairView

namespace Qdma

open Exec

/-! ## Calls under way -/

/-- Where a call of `qdma_queue_add` stands: before it locks the other queue of pair `i`, before it
locks its own queue there, before it prepares the resources for it, before it configures it. -/
inductive AddPc where
  | check (i : ℕ)
  | claim (i : ℕ)
  | prep (i : ℕ)
  | config (i : ℕ)

/-- Where a call of `qdma_queue_config` stands. -/
inductive ConfigPc where
  | claim
  | write

/-- Where a call of `qdma_queue_remove` stands: before each of its sections under the lock of the
queue, and before it counts the queue less. -/
inductive RemovePc where
  | offline
  | cleanup
  | disable
  | uncount

/-- A call under way. -/
inductive UnderWay where
  | add (c : AddCall) (qconf : QueueConf) (pc : AddPc)
  | config (qid : ℕ) (qconf : QueueConf) (pc : ConfigPc)
  | remove (id : ℕ) (ctxCleared : Bool) (pc : RemovePc)

/-- The device, the calls under way, each under a number of its own, and to how many callers each
queue has been handed since it was last removed. -/
structure PairSys where
  dev : QdmaDev
  calls : ℕ → Option UnderWay
  given : ℕ → ℕ

/-- `qdma_queue_add` fails after counting the queue. -/
def QdmaDev.addFail (x : QdmaDev) (c : AddCall) (qconf : QueueConf) (text : String) : QdmaDev :=
  if truncated c.buflen text then x else x.uncount qconf.c2h

/-- A step of `qdma_queue_add`: the device, and where the call stands then, if it goes on. -/
def QdmaDev.addStep (x : QdmaDev) (c : AddCall) (qconf : QueueConf) : AddPc → QdmaDev × Option AddPc
  | .check i =>
      if qconf.qidx = qdmaQueueIdxInvalid then
        if i ≥ x.qmax then (x.addFail c qconf (x.noQpText qconf.st), none)
        else if x.modeClash qconf i then (x, some (.check (i + 1)))
        else (x, some (.claim i))
      else if x.modeClash qconf i then (x.addFail c qconf sameModeText, none)
      else (x, some (.claim i))
  | .claim i =>
      let id := x.queueId qconf.c2h i
      if (x.descq id).enabled then
        if qconf.qidx = qdmaQueueIdxInvalid then (x, some (.check (i + 1)))
        else (x.addFail c qconf (alreadyAddedText i), none)
      else (x.setDescq id { x.descq id with enabled := true }, some (.prep i))
  | .prep i => if c.prep < 0 then (x.uncount qconf.c2h, none) else (x, some (.config i))
  | .config i =>
      let id := x.queueId qconf.c2h i
      (x.setDescq id (qdmaDescqConfig (x.descq id) { qconf with qidx := i } false x.numVecs), none)

/-- A step of `qdma_queue_config`. -/
def QdmaDev.configStep (x : QdmaDev) (qid : ℕ) (qconf : QueueConf) :
    ConfigPc → QdmaDev × Option ConfigPc
  | .claim =>
      if (x.descq qid).enabled then (x, none)
      else (x.setDescq qid { x.descq qid with enabled := true }, some .write)
  | .write =>
      let x := x.count qconf.c2h
      (x.setDescq qid (qdmaDescqConfig (x.descq qid) qconf false x.numVecs), none)

/-- A step of `qdma_queue_remove`. -/
def QdmaDev.removeStep (x : QdmaDev) (id : ℕ) (ctxCleared : Bool) :
    RemovePc → QdmaDev × Option RemovePc
  | .offline =>
      (x.setDescq id { x.descq id with inited := false, online := false }, some .cleanup)
  | .cleanup => (x.descqCleanup id ctxCleared, some .disable)
  | .disable => (x.setDescq id { x.descq id with enabled := false }, some .uncount)
  | .uncount => (x.uncount (x.descq id).conf.c2h, none)

/-- A step of a call. -/
def QdmaDev.callStep (x : QdmaDev) : UnderWay → QdmaDev × Option UnderWay
  | .add c qconf pc =>
      let (x, pc) := x.addStep c qconf pc
      (x, pc.map (.add c qconf))
  | .config qid qconf pc =>
      let (x, pc) := x.configStep qid qconf pc
      (x, pc.map (.config qid qconf))
  | .remove id ctxCleared pc =>
      let (x, pc) := x.removeStep id ctxCleared pc
      (x, pc.map (.remove id ctxCleared))

/-- The callers of each queue: one more when it is configured, none when it is disabled. -/
def QdmaDev.giveStep (x : QdmaDev) (given : ℕ → ℕ) : UnderWay → ℕ → ℕ
  | .add _ qconf (.config i) =>
      Function.update given (x.queueId qconf.c2h i) (given (x.queueId qconf.c2h i) + 1)
  | .config qid _ .write => Function.update given qid (given qid + 1)
  | .remove id _ .disable => Function.update given id 0
  | _ => given

/-- The first section of `qdma_queue_add`, under the lock of the device: the call that goes on
from there, with the queue counted. -/
def QdmaDev.addEnter (x : QdmaDev) (c : AddCall) : QdmaDev × Option UnderWay :=
  match c.qconf with
  | none => (x, none)
  | some qconf =>
      if !c.qhndl then
        if x.gone && !truncated c.buflen (noQhndlText x.name) then (x.fault.1, none) else (x, none)
      else if (qconf.st && !x.stModeEn) || (!qconf.st && !x.mmModeEn) then (x, none)
      else if x.gone then (x.fault.1, none)
      else if qconf.qidx ≠ qdmaQueueIdxInvalid ∧ qconf.qidx ≥ x.qmax then (x, none)
      else if (if qconf.c2h then x.c2hQcnt else x.h2cQcnt) ≥ x.qmax then (x, none)
      else (x.count qconf.c2h,
        some (.add c qconf (.check (if qconf.qidx = qdmaQueueIdxInvalid then 0 else qconf.qidx))))

/-- The first steps of the calls. -/
inductive Enter where
  | add (c : AddCall)
  | config (qid : ℕ) (qconf : QueueConf)
  | remove (id : ℕ) (ctxCleared : Bool)

/-- A call begins: it finds its queue, or returns at once. -/
def QdmaDev.enter (x : QdmaDev) : Enter → QdmaDev × Option UnderWay
  | .add c => x.addEnter c
  | .config qid qconf =>
      (x, if x.gone ∨ qid ≥ 2 * x.qmax then none else some (.config qid qconf .claim))
  | .remove id ctxCleared => (x, if x.Has id then some (.remove id ctxCleared .offline) else none)

/-- A call begins under the number `k`, or call `k` takes its next step. -/
inductive PairStep where
  | enter (k : ℕ) (e : Enter)
  | go (k : ℕ)

def PairSys.step (s : PairSys) : PairStep → PairSys
  | .enter k e =>
      if (s.calls k).isSome then s
      else
        let (x, call) := s.dev.enter e
        { s with dev := x, calls := Function.update s.calls k call }
  | .go k =>
      match s.calls k with
      | none => s
      | some call =>
          let (x, call') := s.dev.callStep call
          { dev := x, calls := Function.update s.calls k call', given := s.dev.giveStep s.given call }

/-! ## What a step does to the view -/

/-- What a call has taken. -/
def UnderWay.taking (x : QdmaDev) : UnderWay → Option Taking
  | .add _ qconf (.prep i) => some ⟨x.queueId qconf.c2h i, qconf.st, true⟩
  | .add _ qconf (.config i) => some ⟨x.queueId qconf.c2h i, qconf.st, true⟩
  | .config qid qconf .write => some ⟨qid, qconf.st, false⟩
  | _ => none

def PairSys.view (s : PairSys) : PairView where
  enabled := fun id => (s.dev.descq id).enabled
  st := fun id => (s.dev.descq id).conf.st
  taking := fun k => (s.calls k).bind (UnderWay.taking s.dev)
  given := s.given

/-- The move that the next step of a call makes. -/
def QdmaDev.moveOf (x : QdmaDev) : UnderWay → Move
  | .add _ qconf (.claim i) =>
      if (x.descq (x.queueId qconf.c2h i)).enabled then .idle
      else .take ⟨x.queueId qconf.c2h i, qconf.st, true⟩
  | .add c qconf (.prep i) =>
      if c.prep < 0 then .leave ⟨x.queueId qconf.c2h i, qconf.st, true⟩ else .idle
  | .add _ qconf (.config i) => .configure ⟨x.queueId qconf.c2h i, qconf.st, true⟩
  | .config qid qconf .claim =>
      if (x.descq qid).enabled then .idle else .take ⟨qid, qconf.st, false⟩
  | .config qid qconf .write => .configure ⟨qid, qconf.st, false⟩
  | .remove id _ .disable => .disable id
  | _ => .idle

/-- A call names queues of the device. -/
def UnderWay.Ok (n : ℕ) : UnderWay → Prop
  | .add _ qconf (.check i) => qconf.qidx ≠ qdmaQueueIdxInvalid → i < n
  | .add _ _ (.claim i) => i < n
  | .config qid _ _ => qid < 2 * n
  | _ => True

/-- Flags and modes are those of `x`. -/
structure SameModes (x x' : QdmaDev) : Prop where
  qmax : x'.qmax = x.qmax
  enabled : (fun id => (x'.descq id).enabled) = fun id => (x.descq id).enabled
  st : (fun id => (x'.descq id).conf.st) = fun id => (x.descq id).conf.st

theorem SameModes.refl (x : QdmaDev) : SameModes x x := ⟨rfl, rfl, rfl⟩

theorem sameModes_uncount (x : QdmaDev) (c2h : Bool) : SameModes x (x.uncount c2h) := by
  obtain ⟨hd, hq⟩ := uncount_same x c2h
  exact ⟨hq, by rw [hd], by rw [hd]⟩

theorem sameModes_count (x : QdmaDev) (c2h : Bool) : SameModes x (x.count c2h) := by
  obtain ⟨hd, hq, -⟩ := count_same x c2h
  exact ⟨hq, by rw [hd], by rw [hd]⟩

theorem sameModes_addFail (x : QdmaDev) (c : AddCall) (qconf : QueueConf) (text : String) :
    SameModes x (x.addFail c qconf text) := by
  unfold QdmaDev.addFail
  split_ifs
  · exact SameModes.refl x
  · exact sameModes_uncount x _

/-- One queue changes. -/
theorem enabled_only {x x' : QdmaDev} {id : ℕ} (h : OnlyQueue id x x') :
    (fun id' => (x'.descq id').enabled)
      = Function.update (fun id' => (x.descq id').enabled) id (x'.descq id).enabled := by
  funext id'
  by_cases hid : id' = id
  · rw [hid, Function.update_self]
  · rw [Function.update_of_ne hid, h.other id' hid]

theorem st_only {x x' : QdmaDev} {id : ℕ} (h : OnlyQueue id x x') :
    (fun id' => (x'.descq id').conf.st)
      = Function.update (fun id' => (x.descq id').conf.st) id (x'.descq id).conf.st := by
  funext id'
  by_cases hid : id' = id
  · rw [hid, Function.update_self]
  · rw [Function.update_of_ne hid, h.other id' hid]

theorem onlyQueue_setDescq (x : QdmaDev) (id : ℕ) (d : Descq) : OnlyQueue id x (x.setDescq id d) :=
  ⟨rfl, fun _ hne => setDescq_of_ne x d hne⟩

/-- A queue changes, but not its flag and its mode. -/
theorem SameModes.of_only {x x' : QdmaDev} {id : ℕ} (h : OnlyQueue id x x')
    (he : (x'.descq id).enabled = (x.descq id).enabled)
    (hst : (x'.descq id).conf.st = (x.descq id).conf.st) : SameModes x x' := by
  refine ⟨h.qmax, ?_, ?_⟩
  · rw [enabled_only h, he]
    exact Function.update_eq_self id (fun id' => (x.descq id').enabled)
  · rw [st_only h, hst]
    exact Function.update_eq_self id (fun id' => (x.descq id').conf.st)

theorem sameModes_setDescq {x : QdmaDev} {id : ℕ} {d : Descq}
    (he : d.enabled = (x.descq id).enabled) (hst : d.conf.st = (x.descq id).conf.st) :
    SameModes x (x.setDescq id d) := by
  refine SameModes.of_only (onlyQueue_setDescq x id d) ?_ ?_
  · rw [setDescq_self, he]
  · rw [setDescq_self, hst]

theorem taking_congr {x x' : QdmaDev} (h : x'.qmax = x.qmax) :
    UnderWay.taking x' = UnderWay.taking x := by
  have hid : ∀ c2h i, x'.queueId c2h i = x.queueId c2h i := by
    intro c2h i
    unfold QdmaDev.queueId
    rw [h]
  funext call
  unfold UnderWay.taking
  split <;> simp only [hid]

/-- The view after a step, component by component. -/
theorem view_step {s : PairSys} {k : ℕ} {x' : QdmaDev} {call' : Option UnderWay} {given' : ℕ → ℕ}
    {v : PairView} (hq : x'.qmax = s.dev.qmax) (he : (fun id => (x'.descq id).enabled) = v.enabled)
    (hst : (fun id => (x'.descq id).conf.st) = v.st)
    (ht : Function.update s.view.taking k (call'.bind (UnderWay.taking s.dev)) = v.taking)
    (hg : given' = v.given) :
    PairSys.view ⟨x', Function.update s.calls k call', given'⟩ = v := by
  refine PairView.ext he hst ?_ hg
  rw [← ht]
  funext k'
  show (Function.update s.calls k call' k').bind (UnderWay.taking x') = _
  rw [taking_congr hq]
  by_cases hk : k' = k
  · rw [hk, Function.update_self, Function.update_self]
  · rw [Function.update_of_ne hk, Function.update_of_ne hk]
    rfl

/-- A step that leaves flags and modes, and what the call has taken. -/
theorem view_idle {s : PairSys} {k : ℕ} {call : UnderWay} (hcall : s.calls k = some call)
    {x' : QdmaDev} (hx : SameModes s.dev x') {call' : Option UnderWay}
    (ht : call'.bind (UnderWay.taking s.dev) = call.taking s.dev) :
    PairSys.view ⟨x', Function.update s.calls k call', s.given⟩ = s.view := by
  refine view_step hx.qmax hx.enabled hx.st ?_ rfl
  have hold : s.view.taking k = call.taking s.dev := by
    show (s.calls k).bind _ = _
    rw [hcall]
    rfl
  rw [ht, ← hold]
  exact Function.update_eq_self k s.view.taking

section AddSteps

variable {x : QdmaDev} {c : AddCall} {qconf : QueueConf} {i : ℕ}

/-- The search for any queue looks at the next index. -/
theorem callStep_check_any (hauto : qconf.qidx = qdmaQueueIdxInvalid) :
    x.callStep (.add c qconf (.check i)) =
      if i ≥ x.qmax then (x.addFail c qconf (x.noQpText qconf.st), none)
      else if x.modeClash qconf i = true then (x, some (.add c qconf (.check (i + 1))))
      else (x, some (.add c qconf (.claim i))) := by
  unfold QdmaDev.callStep QdmaDev.addStep
  simp only
  rw [if_pos hauto]
  split_ifs <;> rfl

/-- The index that was asked for is the only one looked at. -/
theorem callStep_check_asked (hidx : qconf.qidx ≠ qdmaQueueIdxInvalid) :
    x.callStep (.add c qconf (.check i)) =
      if x.modeClash qconf i = true then (x.addFail c qconf sameModeText, none)
      else (x, some (.add c qconf (.claim i))) := by
  unfold QdmaDev.callStep QdmaDev.addStep
  simp only
  rw [if_neg hidx]
  split_ifs <;> rfl

/-- A queue that another call has taken in the meantime. -/
theorem callStep_claim_taken (hen : (x.descq (x.queueId qconf.c2h i)).enabled = true) :
    x.callStep (.add c qconf (.claim i)) =
      if qconf.qidx = qdmaQueueIdxInvalid then (x, some (.add c qconf (.check (i + 1))))
      else (x.addFail c qconf (alreadyAddedText i), none) := by
  unfold QdmaDev.callStep QdmaDev.addStep
  simp only
  rw [if_pos hen]
  split_ifs <;> rfl

theorem callStep_claim_free (hen : ¬ (x.descq (x.queueId qconf.c2h i)).enabled = true) :
    x.callStep (.add c qconf (.claim i)) =
      (x.setDescq (x.queueId qconf.c2h i)
        { x.descq (x.queueId qconf.c2h i) with enabled := true },
        some (.add c qconf (.prep i))) := by
  unfold QdmaDev.callStep QdmaDev.addStep
  simp only
  rw [if_neg hen]
  rfl

theorem callStep_prep_failed (hneg : c.prep < 0) :
    x.callStep (.add c qconf (.prep i)) = (x.uncount qconf.c2h, none) := by
  unfold QdmaDev.callStep QdmaDev.addStep
  simp only
  rw [if_pos hneg]
  rfl

theorem callStep_prep_done (hneg : ¬ c.prep < 0) :
    x.callStep (.add c qconf (.prep i)) = (x, some (.add c qconf (.config i))) := by
  unfold QdmaDev.callStep QdmaDev.addStep
  simp only
  rw [if_neg hneg]
  rfl

end AddSteps

/-- What is to be shown of a step of call `k`. -/
structure StepSpec (s : PairSys) (k : ℕ) (call : UnderWay) : Prop where
  view : (s.step (.go k)).view = s.view.move k (s.dev.moveOf call)
  can : (s.dev.moveOf call).Can s.dev.qmax s.view k
  qmax : (s.step (.go k)).dev.qmax = s.dev.qmax
  ok : ∀ call', (s.dev.callStep call).2 = some call' → call'.Ok s.dev.qmax

theorem step_go {s : PairSys} {k : ℕ} {call : UnderWay} (hcall : s.calls k = some call) :
    s.step (.go k) = ⟨(s.dev.callStep call).1,
      Function.update s.calls k (s.dev.callStep call).2, s.dev.giveStep s.given call⟩ := by
  unfold PairSys.step
  simp only [hcall]

theorem view_taking {s : PairSys} {k : ℕ} {call : UnderWay} (hcall : s.calls k = some call) :
    s.view.taking k = call.taking s.dev := by
  show (s.calls k).bind _ = _
  rw [hcall]
  rfl

/-- A step that changes nothing in the view. -/
theorem StepSpec.idle {s : PairSys} {k : ℕ} {call : UnderWay} (hcall : s.calls k = some call)
    (hmove : s.dev.moveOf call = .idle) (hgive : s.dev.giveStep s.given call = s.given)
    (hx : SameModes s.dev (s.dev.callStep call).1)
    (ht : (s.dev.callStep call).2.bind (UnderWay.taking s.dev) = call.taking s.dev)
    (hok : ∀ call', (s.dev.callStep call).2 = some call' → call'.Ok s.dev.qmax) :
    StepSpec s k call := by
  refine ⟨?_, ?_, ?_, hok⟩
  · rw [hmove, step_go hcall, hgive]
    exact view_idle hcall hx ht
  · rw [hmove]
    trivial
  · rw [step_go hcall]
    exact hx.qmax

/-- A step that takes a queue. -/
theorem StepSpec.take {s : PairSys} {k : ℕ} {call : UnderWay} (t : Taking) (call' : UnderWay)
    (hcall : s.calls k = some call) (hmove : s.dev.moveOf call = .take t)
    (hgive : s.dev.giveStep s.given call = s.given)
    (hx : s.dev.callStep call
      = (s.dev.setDescq t.id { s.dev.descq t.id with enabled := true }, some call'))
    (hfree : call.taking s.dev = none) (ht : call'.taking s.dev = some t)
    (hen : (s.dev.descq t.id).enabled = false) (hlt : t.id < 2 * s.dev.qmax)
    (hok : call'.Ok s.dev.qmax) : StepSpec s k call := by
  have honly := onlyQueue_setDescq s.dev t.id { s.dev.descq t.id with enabled := true }
  refine ⟨?_, ?_, ?_, fun c hc => ?_⟩
  · rw [hmove, step_go hcall, hgive, hx]
    refine view_step rfl ?_ ?_ ?_ rfl
    · rw [enabled_only honly, setDescq_self]
      rfl
    · rw [st_only honly, setDescq_self]
      exact Function.update_eq_self t.id (fun id' => (s.dev.descq id').conf.st)
    · exact congrArg (Function.update s.view.taking k) ht
  · rw [hmove]
    exact ⟨(view_taking hcall).trans hfree, hen, hlt⟩
  · rw [step_go hcall, hx]
    rfl
  · rw [hx] at hc
    rw [← Option.some.inj hc]
    exact hok

/-- A step that configures the queue taken, the last one of its call. -/
theorem StepSpec.configure {s : PairSys} {k : ℕ} {call : UnderWay} {t : Taking}
    (hcall : s.calls k = some call) (hmove : s.dev.moveOf call = .configure t)
    (hgive : s.dev.giveStep s.given call
      = Function.update s.given t.id (s.given t.id + 1))
    {x' : QdmaDev} (hx : s.dev.callStep call = (x', none)) (ht : call.taking s.dev = some t)
    (honly : OnlyQueue t.id s.dev x')
    (he : (x'.descq t.id).enabled = (s.dev.descq t.id).enabled)
    (hst : (x'.descq t.id).conf.st = t.st) : StepSpec s k call := by
  refine ⟨?_, ?_, ?_, fun c hc => ?_⟩
  · rw [hmove, step_go hcall, hgive, hx]
    refine view_step honly.qmax ?_ ?_ rfl rfl
    · rw [enabled_only honly, he]
      exact Function.update_eq_self t.id (fun id' => (s.dev.descq id').enabled)
    · rw [st_only honly, hst]
      rfl
  · rw [hmove]
    exact (view_taking hcall).trans ht
  · rw [step_go hcall, hx]
    exact honly.qmax
  · rw [hx] at hc
    exact absurd hc (by simp)

theorem stepSpec_add {s : PairSys} {k : ℕ} {c : AddCall} {qconf : QueueConf} {pc : AddPc}
    (hcall : s.calls k = some (.add c qconf pc)) (hok : (UnderWay.add c qconf pc).Ok s.dev.qmax) :
    StepSpec s k (.add c qconf pc) := by
  cases pc with
  | check i =>
      by_cases hauto : qconf.qidx = qdmaQueueIdxInvalid
      · refine StepSpec.idle hcall rfl rfl ?_ ?_ ?_
        · rw [callStep_check_any hauto]
          split_ifs
          · exact sameModes_addFail _ _ _ _
          · exact SameModes.refl _
          · exact SameModes.refl _
        · rw [callStep_check_any hauto]
          split_ifs <;> rfl
        · intro call' hc
          rw [callStep_check_any hauto] at hc
          split_ifs at hc with hge
          · rw [← Option.some.inj hc]
            exact fun hne => absurd hauto hne
          · rw [← Option.some.inj hc]
            exact Nat.lt_of_not_ge hge
      · refine StepSpec.idle hcall rfl rfl ?_ ?_ ?_
        · rw [callStep_check_asked hauto]
          split_ifs
          · exact sameModes_addFail _ _ _ _
          · exact SameModes.refl _
        · rw [callStep_check_asked hauto]
          split_ifs <;> rfl
        · intro call' hc
          rw [callStep_check_asked hauto] at hc
          split_ifs at hc
          rw [← Option.some.inj hc]
          exact hok hauto
  | claim i =>
      have hi : i < s.dev.qmax := hok
      by_cases hen : (s.dev.descq (s.dev.queueId qconf.c2h i)).enabled = true
      · refine StepSpec.idle hcall (if_pos hen) rfl ?_ ?_ ?_
        · rw [callStep_claim_taken hen]
          split_ifs
          · exact SameModes.refl _
          · exact sameModes_addFail _ _ _ _
        · rw [callStep_claim_taken hen]
          split_ifs <;> rfl
        · intro call' hc
          rw [callStep_claim_taken hen] at hc
          split_ifs at hc with hauto
          rw [← Option.some.inj hc]
          exact fun hne => absurd hauto hne
      · exact StepSpec.take ⟨s.dev.queueId qconf.c2h i, qconf.st, true⟩ (.add c qconf (.prep i))
          hcall (if_neg hen) rfl (callStep_claim_free hen) rfl rfl (by simpa using hen)
          (queueId_lt hi _) trivial
  | prep i =>
      by_cases hneg : c.prep < 0
      · have hx : s.dev.callStep (.add c qconf (.prep i)) = (s.dev.uncount qconf.c2h, none) :=
          callStep_prep_failed hneg
        have hsame := sameModes_uncount s.dev qconf.c2h
        refine ⟨?_, ?_, ?_, fun call' hc => ?_⟩
        · rw [show s.dev.moveOf (.add c qconf (.prep i)) = .leave _ from if_pos hneg,
            step_go hcall, hx]
          exact view_step hsame.qmax hsame.enabled hsame.st rfl rfl
        · rw [show s.dev.moveOf (.add c qconf (.prep i)) = .leave _ from if_pos hneg]
          exact view_taking hcall
        · rw [step_go hcall, hx]
          exact hsame.qmax
        · rw [hx] at hc
          exact absurd hc (by simp)
      · have hx : s.dev.callStep (.add c qconf (.prep i))
            = (s.dev, some (.add c qconf (.config i))) := callStep_prep_done hneg
        refine StepSpec.idle hcall (if_neg hneg) rfl ?_ ?_ ?_
        · rw [hx]
          exact SameModes.refl _
        · rw [hx]
          rfl
        · intro call' hc
          rw [hx] at hc
          rw [← Option.some.inj hc]
          trivial
  | config i =>
      refine StepSpec.configure (t := ⟨s.dev.queueId qconf.c2h i, qconf.st, true⟩) hcall rfl rfl rfl
        rfl (onlyQueue_setDescq _ _ _) ?_ ?_
      · rw [setDescq_self]
        rfl
      · rw [setDescq_self]
        rfl

theorem stepSpec_config {s : PairSys} {k : ℕ} {qid : ℕ} {qconf : QueueConf} {pc : ConfigPc}
    (hcall : s.calls k = some (.config qid qconf pc))
    (hok : (UnderWay.config qid qconf pc).Ok s.dev.qmax) :
    StepSpec s k (.config qid qconf pc) := by
  have hlt : qid < 2 * s.dev.qmax := hok
  cases pc with
  | claim =>
      by_cases hen : (s.dev.descq qid).enabled = true
      · have hx : s.dev.callStep (.config qid qconf .claim) = (s.dev, none) := by
          unfold QdmaDev.callStep QdmaDev.configStep
          simp only
          rw [if_pos hen]
          rfl
        refine StepSpec.idle hcall (if_pos hen) rfl ?_ ?_ ?_
        · rw [hx]
          exact SameModes.refl _
        · rw [hx]
          rfl
        · intro call' hc
          rw [hx] at hc
          exact absurd hc (by simp)
      · refine StepSpec.take ⟨qid, qconf.st, false⟩ (.config qid qconf .write) hcall (if_neg hen)
          rfl ?_ rfl rfl (by simpa using hen) hlt hok
        unfold QdmaDev.callStep QdmaDev.configStep
        simp only
        rw [if_neg hen]
        rfl
  | write =>
      obtain ⟨hd, hq, -⟩ := count_same s.dev qconf.c2h
      refine StepSpec.configure (t := ⟨qid, qconf.st, false⟩) hcall rfl rfl rfl rfl ?_ ?_ ?_
      · exact ⟨hq, fun id hne => by rw [setDescq_of_ne _ _ hne, hd]⟩
      · rw [setDescq_self]
        show ((s.dev.count qconf.c2h).descq qid).enabled = _
        rw [hd]
      · rw [setDescq_self]
        rfl

theorem stepSpec_remove {s : PairSys} {k : ℕ} {id : ℕ} {ctxCleared : Bool} {pc : RemovePc}
    (hcall : s.calls k = some (.remove id ctxCleared pc)) :
    StepSpec s k (.remove id ctxCleared pc) := by
  have hnext : ∀ {x' : QdmaDev} {pc' : RemovePc} {call' : UnderWay},
      s.dev.callStep (.remove id ctxCleared pc) = (x', some (.remove id ctxCleared pc')) →
      (s.dev.callStep (.remove id ctxCleared pc)).2 = some call' → call'.Ok s.dev.qmax := by
    intro x' pc' call' hx hc
    rw [hx] at hc
    rw [← Option.some.inj hc]
    trivial
  cases pc with
  | offline =>
      exact StepSpec.idle hcall rfl rfl (sameModes_setDescq rfl rfl) rfl (fun _ => hnext rfl)
  | cleanup =>
      obtain ⟨honly, hconf, hen, -⟩ := descqCleanup_only s.dev id ctxCleared
      exact StepSpec.idle hcall rfl rfl
        (SameModes.of_only honly hen (congrArg QueueConf.st hconf)) rfl (fun _ => hnext rfl)
  | disable =>
      have honly := onlyQueue_setDescq s.dev id { s.dev.descq id with enabled := false }
      refine ⟨?_, trivial, ?_, fun _ => hnext rfl⟩
      · rw [step_go hcall]
        refine view_step rfl ?_ ?_ ?_ rfl
        · show (fun id' => ((s.dev.setDescq id _).descq id').enabled) = _
          rw [enabled_only honly, setDescq_self]
          rfl
        · show (fun id' => ((s.dev.setDescq id _).descq id').conf.st) = _
          rw [st_only honly, setDescq_self]
          exact Function.update_eq_self id (fun id' => (s.dev.descq id').conf.st)
        · have hnone := view_taking hcall
          exact (congrArg (Function.update s.view.taking k) hnone.symm).trans
            (Function.update_eq_self k s.view.taking)
      · rw [step_go hcall]
        rfl
  | uncount =>
      refine StepSpec.idle hcall rfl rfl (sameModes_uncount _ _) rfl (fun call' hc => ?_)
      exact absurd hc (by simp [QdmaDev.callStep, QdmaDev.removeStep])

/-- **A step of a call** is the move it makes. -/
theorem stepSpec {s : PairSys} {k : ℕ} {call : UnderWay} (hcall : s.calls k = some call)
    (hok : call.Ok s.dev.qmax) : StepSpec s k call := by
  cases call with
  | add c qconf pc => exact stepSpec_add hcall hok
  | config qid qconf pc => exact stepSpec_config hcall hok
  | remove id ctxCleared pc => exact stepSpec_remove hcall

/-- A call that begins has taken nothing, and names queues of the device. -/
theorem enter_spec (x : QdmaDev) (e : Enter) :
    SameModes x (x.enter e).1 ∧
      ∀ call, (x.enter e).2 = some call → call.taking x = none ∧ call.Ok x.qmax := by
  cases e with
  | add c =>
      unfold QdmaDev.enter QdmaDev.addEnter
      simp only
      cases c.qconf with
      | none => exact ⟨SameModes.refl x, fun _ h => absurd h (by simp)⟩
      | some qconf =>
          simp only
          have hidle : SameModes x x ∧ ∀ call, (none : Option UnderWay) = some call →
              call.taking x = none ∧ call.Ok x.qmax :=
            ⟨SameModes.refl x, fun _ h => absurd h (by simp)⟩
          have hfault : SameModes x x.fault.1 ∧ ∀ call, (none : Option UnderWay) = some call →
              call.taking x = none ∧ call.Ok x.qmax := ⟨⟨rfl, rfl, rfl⟩, hidle.2⟩
          by_cases h1 : (!c.qhndl) = true
          · rw [if_pos h1]
            by_cases hunlock : (x.gone && !truncated c.buflen (noQhndlText x.name)) = true
            · rw [if_pos hunlock]
              exact hfault
            · rw [if_neg hunlock]
              exact hidle
          rw [if_neg h1]
          by_cases h2 : (qconf.st && !x.stModeEn || !qconf.st && !x.mmModeEn) = true
          · rw [if_pos h2]
            exact hidle
          rw [if_neg h2]
          by_cases h3 : x.gone = true
          · rw [if_pos h3]
            exact hfault
          rw [if_neg h3]
          by_cases h4 : qconf.qidx ≠ qdmaQueueIdxInvalid ∧ qconf.qidx ≥ x.qmax
          · rw [if_pos h4]
            exact hidle
          rw [if_neg h4]
          by_cases h5 : (if qconf.c2h then x.c2hQcnt else x.h2cQcnt) ≥ x.qmax
          · rw [if_pos h5]
            exact hidle
          rw [if_neg h5]
          refine ⟨sameModes_count x _, fun call h => ?_⟩
          rw [← Option.some.inj h]
          refine ⟨rfl, fun hauto => ?_⟩
          rw [if_neg hauto]
          by_contra hge
          exact h4 ⟨hauto, Nat.le_of_not_lt hge⟩
  | config qid qconf =>
      refine ⟨SameModes.refl x, fun call h => ?_⟩
      unfold QdmaDev.enter at h
      simp only at h
      split_ifs at h with hno
      rw [← Option.some.inj h]
      exact ⟨rfl, Nat.lt_of_not_ge (fun hge => hno (.inr hge))⟩
  | remove id ctxCleared =>
      refine ⟨SameModes.refl x, fun call h => ?_⟩
      unfold QdmaDev.enter at h
      simp only at h
      split_ifs at h
      rw [← Option.some.inj h]
      exact ⟨rfl, trivial⟩

/-! ## Runs -/

/-- The call is one of `qdma_queue_add`. -/
def UnderWay.isAdd : UnderWay → Bool
  | .add _ _ _ => true
  | _ => false

/-- **The law of the pairs**: while no call of `qdma_queue_add` is under way the two queues of a
pair have one mode if both are enabled, and no queue is in the hands of two callers. -/
structure PairLaw (s : PairSys) : Prop where
  mode : (∀ k call, s.calls k = some call → call.isAdd = false) →
    ∀ i < s.dev.qmax, (s.dev.descq (s.dev.queueId false i)).enabled = true →
      (s.dev.descq (s.dev.queueId true i)).enabled = true →
      (s.dev.descq (s.dev.queueId false i)).conf.st = (s.dev.descq (s.dev.queueId true i)).conf.st
  once : ∀ id, s.given id ≤ 1

/-- **The steps that keep it**: those whose move fits the view of the pairs. -/
def PairLegal (s : PairSys) : PairStep → Prop
  | .enter _ _ => True
  | .go k => ∀ call, s.calls k = some call → (s.dev.moveOf call).Fits s.dev.qmax s.view

/-- A device on which no queue has been added, and no call is under way. -/
structure FreshPairs (s : PairSys) : Prop where
  enabled : ∀ id, (s.dev.descq id).enabled = false
  calls : ∀ k, s.calls k = none
  given : ∀ id, s.given id = 0

/-- The invariant of the view, and the calls name queues of the device. -/
structure PairSysInv (s : PairSys) : Prop where
  view : PairInv s.dev.qmax s.view
  ok : ∀ k call, s.calls k = some call → call.Ok s.dev.qmax

theorem FreshPairs.inv {s : PairSys} (h : FreshPairs s) : PairSysInv s := by
  have hnone : ∀ k, s.view.taking k = none := by
    intro k
    show (s.calls k).bind _ = none
    rw [h.calls]
    rfl
  have habsurd : ∀ {k t} {P : Prop}, s.view.taking k = some t → P := by
    intro k t P ht
    rw [hnone] at ht
    exact absurd ht (by simp)
  refine ⟨⟨fun _ _ ht => habsurd ht, fun _ _ _ _ ht => habsurd ht, fun id _ he => ?_,
    fun _ _ ht => habsurd ht, fun id => ?_, fun id _ => h.given id⟩, fun k call hc => ?_⟩
  · have hoff : s.view.enabled id = false := h.enabled id
    rw [hoff] at he
    exact absurd he (by decide)
  · have hzero : s.view.given id = 0 := h.given id
    rw [hzero]
    exact Nat.zero_le 1
  · rw [h.calls] at hc
    exact absurd hc (by simp)

/-- **One step.** -/
theorem PairSysInv.step {s : PairSys} (h : PairSysInv s) {e : PairStep} (hl : PairLegal s e) :
    PairSysInv (s.step e) := by
  cases e with
  | enter k e =>
      unfold PairSys.step
      simp only
      cases hcall : s.calls k with
      | some call => exact h
      | none =>
          simp only [Option.isSome_none, Bool.false_eq_true, if_false]
          obtain ⟨hx, hnew⟩ := enter_spec s.dev e
          generalize s.dev.enter e = r at hx hnew
          obtain ⟨x, call'⟩ := r
          simp only at hx hnew ⊢
          -- a call that comes in takes no queue yet
          have hview : PairSys.view ⟨x, Function.update s.calls k call', s.given⟩ = s.view := by
            refine view_step hx.qmax hx.enabled hx.st ?_ rfl
            have hold : s.view.taking k = none := by
              show (s.calls k).bind _ = none
              rw [hcall]
              rfl
            have hnone : call'.bind (UnderWay.taking s.dev) = none := by
              cases hc : call' with
              | none => rfl
              | some call => exact (hnew call hc).1
            rw [hnone, ← hold]
            exact Function.update_eq_self k s.view.taking
          refine ⟨?_, fun k' call hc => ?_⟩
          · rw [hview]
            show PairInv x.qmax s.view
            rw [hx.qmax]
            exact h.view
          · show call.Ok x.qmax
            rw [hx.qmax]
            change Function.update s.calls k call' k' = some call at hc
            by_cases hk : k' = k
            · rw [hk, Function.update_self] at hc
              exact (hnew call hc).2
            · rw [Function.update_of_ne hk] at hc
              exact h.ok k' call hc
  | go k =>
      cases hcall : s.calls k with
      | none =>
          unfold PairSys.step
          simp only [hcall]
          exact h
      | some call =>
          have hspec := stepSpec hcall (h.ok k call hcall)
          refine ⟨?_, fun k' call' hc => ?_⟩
          · rw [hspec.view, hspec.qmax]
            exact h.view.move hspec.can (hl call hcall)
          · rw [hspec.qmax]
            rw [step_go hcall] at hc
            change Function.update s.calls k _ k' = some call' at hc
            by_cases hk : k' = k
            · rw [hk, Function.update_self] at hc
              exact hspec.ok call' hc
            · rw [Function.update_of_ne hk] at hc
              exact h.ok k' call' hc

/-- The invariant gives the law. -/
theorem PairSysInv.law {s : PairSys} (h : PairSysInv s) : PairLaw s := by
  obtain ⟨hmode, honce⟩ := h.view.law
  refine ⟨fun hno i hi he he' => hmode ?_ i hi he he', honce⟩
  intro id k u hu _
  change (s.calls k).bind _ = some u at hu
  cases hcall : s.calls k with
  | none =>
      rw [hcall] at hu
      exact absurd hu (by simp)
  | some call =>
      rw [hcall] at hu
      have hadd := hno k call hcall
      cases call with
      | add c qconf pc => exact absurd hadd (by simp [UnderWay.isAdd])
      | config qid qconf pc =>
          cases pc with
          | claim => exact absurd hu (by simp [UnderWay.taking])
          | write =>
              rw [← Option.some.inj hu]
      | remove id ctxCleared pc => exact absurd hu (by simp [UnderWay.taking])

/-- **Both queues of a pair have one mode**, and no queue is handed out twice, in every run whose
steps fit. -/
theorem pair_modes {s₀ s : PairSys} {evs : List PairStep} (h0 : FreshPairs s₀)
    (hr : Run PairSys.step PairLegal s₀ evs s) : PairLaw s :=
  (hr.invariant h0.inv (fun _ _ h hl => h.step hl)).law

/-! ## A call alone -/

/-- Call `k`, with no other taking steps, returns and leaves the device `x`. -/
inductive Returns (k : ℕ) : PairSys → QdmaDev → Prop
  | done {s : PairSys} {x : QdmaDev} (hnone : s.calls k = none) (hdev : s.dev = x) : Returns k s x
  | go {s : PairSys} {x : QdmaDev} (h : Returns k (s.step (.go k)) x) : Returns k s x

theorem Returns.next {s : PairSys} {k : ℕ} {call : UnderWay} {y : QdmaDev}
    (hcall : s.calls k = some call)
    (h : ∀ s' : PairSys, s'.dev = (s.dev.callStep call).1 →
      s'.calls k = (s.dev.callStep call).2 → Returns k s' y) : Returns k s y := by
  refine .go ?_
  rw [step_go hcall]
  exact h _ rfl (Function.update_self ..)

/-- The last steps of `qdma_queue_add`: the queue is free. -/
theorem returns_claim {k : ℕ} {c : AddCall} {qconf : QueueConf} {i : ℕ} {s : PairSys}
    (hcall : s.calls k = some (.add c qconf (.claim i)))
    (hfree : (s.dev.descq (s.dev.queueId qconf.c2h i)).enabled = false)
    (hfind : s.dev.findQueue qconf = .ok i) :
    Returns k s (s.dev.queueClaim c qconf).1 := by
  refine .next hcall (fun s1 hdev1 hcall1 => ?_)
  have hfree' : ¬ (s.dev.descq (s.dev.queueId qconf.c2h i)).enabled = true :=
    Bool.not_eq_true _ ▸ hfree
  rw [callStep_claim_free hfree'] at hdev1 hcall1
  refine .next hcall1 (fun s2 hdev2 hcall2 => ?_)
  unfold QdmaDev.queueClaim
  rw [hfind]
  simp only
  by_cases hneg : c.prep < 0
  · rw [callStep_prep_failed hneg] at hdev2 hcall2
    rw [if_pos hneg]
    simp only at hdev1 hdev2
    rw [hdev1] at hdev2
    exact .done hcall2 hdev2
  · rw [callStep_prep_done hneg] at hdev2 hcall2
    rw [if_neg hneg]
    refine .next hcall2 (fun s3 hdev3 hcall3 => ?_)
    simp only at hdev1 hdev2
    rw [hdev2, hdev1] at hdev3
    exact .done hcall3 hdev3

/-- The search for a free queue from `i` on. -/
theorem returns_search {k : ℕ} {c : AddCall} {qconf : QueueConf}
    (hauto : qconf.qidx = qdmaQueueIdxInvalid) (n : ℕ) :
    ∀ (i : ℕ) (s : PairSys), i + n = s.dev.qmax → s.calls k = some (.add c qconf (.check i)) →
      (∀ j < i, (!s.dev.modeClash qconf j
        && !(s.dev.descq (s.dev.queueId qconf.c2h j)).enabled) = false) →
      Returns k s (s.dev.queueClaim c qconf).1 := by
  induction n with
  | zero =>
      -- none is free
      intro i s hin hcall hbefore
      have hfind : s.dev.findQueue qconf = .error (qdmaErrDescqFull, s.dev.noQpText qconf.st) := by
        unfold QdmaDev.findQueue
        rw [if_pos hauto, List.find?_range_eq_none.mpr]
        intro j hj
        rw [hbefore j (by omega)]
        rfl
      refine .next hcall (fun s1 hdev1 hcall1 => ?_)
      rw [callStep_check_any hauto, if_pos (by omega)] at hdev1 hcall1
      unfold QdmaDev.queueClaim
      rw [hfind]
      exact .done hcall1 hdev1
  | succ n ih =>
      intro i s hin hcall hbefore
      refine .next hcall (fun s1 hdev1 hcall1 => ?_)
      have hlt : ¬ i ≥ s.dev.qmax := by omega
      by_cases hclash : s.dev.modeClash qconf i = true
      · -- the other direction of the pair has the other mode: the next index
        rw [callStep_check_any hauto, if_neg hlt, if_pos hclash] at hdev1 hcall1
        rw [← show s1.dev = s.dev from hdev1] at hin hbefore hclash ⊢
        refine ih (i + 1) s1 (by omega) hcall1 (fun j hj => ?_)
        rcases Nat.lt_succ_iff_lt_or_eq.mp hj with hj | rfl
        · exact hbefore j hj
        · rw [hclash]
          rfl
      · rw [callStep_check_any hauto, if_neg hlt, if_neg hclash] at hdev1 hcall1
        rw [← show s1.dev = s.dev from hdev1] at hin hbefore hclash hlt ⊢
        cases hen : (s1.dev.descq (s1.dev.queueId qconf.c2h i)).enabled with
        | false =>
            refine returns_claim hcall1 hen ?_
            unfold QdmaDev.findQueue
            rw [if_pos hauto, List.find?_range_eq_some.mpr]
            refine ⟨?_, List.mem_range.mpr (Nat.lt_of_not_ge hlt), fun j hj => ?_⟩
            · rw [hen, Bool.eq_false_iff.mpr hclash]
              rfl
            · rw [hbefore j hj]
              rfl
        | true =>
            -- the queue is in use: the next index
            refine .next hcall1 (fun s2 hdev2 hcall2 => ?_)
            rw [callStep_claim_taken hen, if_pos hauto] at hdev2 hcall2
            rw [← show s2.dev = s1.dev from hdev2] at hin hbefore hclash hen ⊢
            refine ih (i + 1) s2 (by omega) hcall2 (fun j hj => ?_)
            rcases Nat.lt_succ_iff_lt_or_eq.mp hj with hj | rfl
            · exact hbefore j hj
            · rw [hen]
              exact Bool.and_false _

/-- The index that was asked for. -/
theorem returns_explicit {k : ℕ} {c : AddCall} {qconf : QueueConf} {s : PairSys}
    (hidx : qconf.qidx ≠ qdmaQueueIdxInvalid)
    (hcall : s.calls k = some (.add c qconf (.check qconf.qidx))) :
    Returns k s (s.dev.queueClaim c qconf).1 := by
  have hfail : ∀ (rv : ℤ) (text : String) {s : PairSys} {call : UnderWay}, s.calls k = some call →
      s.dev.findQueue qconf = .error (rv, text) →
      s.dev.callStep call = (s.dev.addFail c qconf text, none) →
      Returns k s (s.dev.queueClaim c qconf).1 := by
    intro rv text s call hcall hfind hstep
    refine .next hcall (fun s1 hdev1 hcall1 => ?_)
    rw [hstep] at hdev1 hcall1
    unfold QdmaDev.queueClaim
    rw [hfind]
    exact .done hcall1 hdev1
  by_cases hclash : s.dev.modeClash qconf qconf.qidx = true
  · refine hfail einval sameModeText hcall ?_ ?_
    · unfold QdmaDev.findQueue
      rw [if_neg hidx, if_pos hclash]
    · rw [callStep_check_asked hidx, if_pos hclash]
  · refine .next hcall (fun s1 hdev1 hcall1 => ?_)
    rw [callStep_check_asked hidx, if_neg hclash] at hdev1 hcall1
    rw [← show s1.dev = s.dev from hdev1] at hclash ⊢
    cases hen : (s1.dev.descq (s1.dev.queueId qconf.c2h qconf.qidx)).enabled with
    | false =>
        refine returns_claim hcall1 hen ?_
        unfold QdmaDev.findQueue
        rw [if_neg hidx, if_neg hclash, if_neg (by rw [hen]; decide)]
    | true =>
        refine hfail qdmaErrDescqIdxAlreadyAdded (alreadyAddedText qconf.qidx) hcall1 ?_ ?_
        · unfold QdmaDev.findQueue
          rw [if_neg hidx, if_neg hclash, if_pos hen]
        · rw [callStep_claim_taken hen, if_neg hidx]

/-- A call of `qdma_queue_add` begins, or returns at once. -/
theorem addEnter_cases (x : QdmaDev) (c : AddCall) :
    x.addEnter c = ((x.queueAdd c).1, none) ∨
      ∃ qconf, x.addEnter c = (x.count qconf.c2h, some (.add c qconf
          (.check (if qconf.qidx = qdmaQueueIdxInvalid then 0 else qconf.qidx)))) ∧
        x.queueAdd c = (x.count qconf.c2h).queueClaim c qconf := by
  unfold QdmaDev.addEnter QdmaDev.queueAdd
  cases c.qconf with
  | none => exact .inl rfl
  | some qconf =>
      simp only
      by_cases h1 : (!c.qhndl) = true
      · rw [if_pos h1, if_pos h1]
        left
        split_ifs <;> rfl
      rw [if_neg h1, if_neg h1]
      by_cases h2 : (qconf.st && !x.stModeEn || !qconf.st && !x.mmModeEn) = true
      · rw [if_pos h2, if_pos h2]
        exact .inl rfl
      rw [if_neg h2, if_neg h2]
      by_cases h3 : x.gone = true
      · rw [if_pos h3, if_pos h3]
        exact .inl rfl
      rw [if_neg h3, if_neg h3]
      by_cases h4 : qconf.qidx ≠ qdmaQueueIdxInvalid ∧ qconf.qidx ≥ x.qmax
      · rw [if_pos h4, if_pos h4]
        exact .inl rfl
      rw [if_neg h4, if_neg h4]
      by_cases h5 : (if qconf.c2h then x.c2hQcnt else x.h2cQcnt) ≥ x.qmax
      · rw [if_pos h5, if_pos h5]
        exact .inl rfl
      rw [if_neg h5, if_neg h5]
      exact .inr ⟨qconf, rfl, rfl⟩

theorem step_enter {s : PairSys} {k : ℕ} (hk : s.calls k = none) (e : Enter) :
    s.step (.enter k e) = { s with
      dev := (s.dev.enter e).1, calls := Function.update s.calls k (s.dev.enter e).2 } := by
  unfold PairSys.step
  simp only
  rw [if_neg (by rw [hk]; decide)]

/-- **`qdma_queue_add` alone** does what it does in one piece. -/
theorem add_alone {s : PairSys} {k : ℕ} (hk : s.calls k = none) (c : AddCall) :
    Returns k (s.step (.enter k (.add c))) (s.dev.queueAdd c).1 := by
  rw [step_enter hk]
  unfold QdmaDev.enter
  simp only
  rcases addEnter_cases s.dev c with henter | ⟨qconf, henter, hadd⟩
  · rw [henter]
    exact .done (Function.update_self ..) rfl
  · rw [henter, hadd]
    by_cases hauto : qconf.qidx = qdmaQueueIdxInvalid
    · refine returns_search hauto (s.dev.count qconf.c2h).qmax 0 _ (Nat.zero_add _) ?_
        (fun j hj => absurd hj (Nat.not_lt_zero j))
      show Function.update s.calls k _ k = _
      rw [Function.update_self, if_pos hauto]
    · refine returns_explicit hauto ?_
      show Function.update s.calls k _ k = _
      rw [Function.update_self, if_neg hauto]

/-- **`qdma_queue_config` alone.** -/
theorem config_alone {s : PairSys} {k : ℕ} (hk : s.calls k = none) (qid : ℕ) (qconf : QueueConf) :
    Returns k (s.step (.enter k (.config qid qconf))) (s.dev.queueConfig qid qconf).1 := by
  rw [step_enter hk]
  unfold QdmaDev.enter QdmaDev.queueConfig
  simp only
  by_cases h1 : s.dev.gone = true
  · rw [if_pos h1, if_pos (.inl h1)]
    exact .done (Function.update_self ..) rfl
  rw [if_neg h1]
  by_cases h2 : qid ≥ 2 * s.dev.qmax
  · rw [if_pos h2, if_pos (.inr h2)]
    exact .done (Function.update_self ..) rfl
  rw [if_neg h2, if_neg (not_or.mpr ⟨h1, h2⟩)]
  refine .next (Function.update_self ..) (fun s1 hdev1 hcall1 => ?_)
  by_cases hen : (s.dev.descq qid).enabled = true
  · have hstep : s.dev.callStep (.config qid qconf .claim) = (s.dev, none) := by
      unfold QdmaDev.callStep QdmaDev.configStep
      simp only
      rw [if_pos hen]
      rfl
    simp only at hdev1 hcall1
    rw [hstep] at hdev1 hcall1
    rw [if_pos hen]
    exact .done hcall1 hdev1
  · have hstep : s.dev.callStep (.config qid qconf .claim)
        = (s.dev.setDescq qid { s.dev.descq qid with enabled := true },
          some (.config qid qconf .write)) := by
      unfold QdmaDev.callStep QdmaDev.configStep
      simp only
      rw [if_neg hen]
      rfl
    simp only at hdev1 hcall1
    rw [hstep] at hdev1 hcall1
    rw [if_neg hen]
    refine .next hcall1 (fun s2 hdev2 hcall2 => ?_)
    rw [hdev1] at hdev2
    exact .done hcall2 hdev2

/-- **`qdma_queue_remove` alone.** -/
theorem remove_alone {s : PairSys} {k : ℕ} (hk : s.calls k = none) (id : ℕ) (ctxCleared : Bool) :
    Returns k (s.step (.enter k (.remove id ctxCleared))) (s.dev.queueRemove id ctxCleared) := by
  rw [step_enter hk]
  unfold QdmaDev.enter QdmaDev.queueRemove
  simp only
  by_cases hhas : s.dev.Has id
  · rw [if_pos hhas, if_pos hhas]
    refine .next (Function.update_self ..) (fun s1 hdev1 hcall1 => ?_)
    refine .next hcall1 (fun s2 hdev2 hcall2 => ?_)
    refine .next hcall2 (fun s3 hdev3 hcall3 => ?_)
    refine .next hcall3 (fun s4 hdev4 hcall4 => ?_)
    rw [hdev3, hdev2, hdev1] at hdev4
    exact .done hcall4 hdev4
  · rw [if_neg hhas, if_neg hhas]
    exact .done (Function.update_self ..) rfl

/-! ## Runs on a device with one pair -/

/-- A device with one pair and no calls. -/
def onePair : PairSys where
  dev := pairDev 0
  calls := fun _ => none
  given := fun _ => 0

/-- A call for a queue of pair 0. -/
def addZero (st c2h : Bool) : Enter := .add { qconf := some { st := st, c2h := c2h } }

theorem legal_go {s : PairSys} {k : ℕ} {call : UnderWay} (hcall : s.calls k = some call)
    (hfits : (s.dev.moveOf call).Fits s.dev.qmax s.view) : PairLegal s (.go k) := by
  intro call' hc
  rw [hcall] at hc
  rw [← Option.some.inj hc]
  exact hfits

/-- Both queues of the pair are added in one mode by two calls side by side. -/
def sideBySide (st : Bool) : List PairStep :=
  [.enter 0 (addZero false false), .enter 1 (addZero st true), .go 0, .go 1, .go 0, .go 1,
    .go 0, .go 0, .go 1, .go 1]

theorem pair_modes_same : PairLaw ((sideBySide false).foldl PairSys.step onePair) := by
  unfold sideBySide
  rw [List.foldl_cons, List.foldl_cons, List.foldl_cons, List.foldl_cons, List.foldl_cons,
    List.foldl_cons, List.foldl_cons, List.foldl_cons, List.foldl_cons, List.foldl_cons,
    List.foldl_nil]
  have h0 : FreshPairs onePair := ⟨fun _ => rfl, fun _ => rfl, fun _ => rfl⟩
  refine pair_modes h0
    ((((((((((Run.nil.snoc ?_).snoc ?_).snoc ?_).snoc ?_).snoc ?_).snoc ?_).snoc ?_).snoc ?_).snoc
      ?_).snoc ?_)
  · trivial
  · trivial
  · exact legal_go rfl trivial
  · exact legal_go rfl trivial
  · refine legal_go rfl ⟨fun he => ?_, fun hby => ?_⟩
    · exact absurd he (by decide)
    · exact absurd hby (by decide)
  · -- the other queue has been taken by call 0, for MM
    refine legal_go rfl ⟨fun _ => ⟨fun k u hu _ => ?_, fun hno => ?_⟩, fun hby => ?_⟩
    · match k, hu with
      | 0, hu => rw [← Option.some.inj hu]
      | 1, hu => exact absurd (show (none : Option Taking) = some u from hu) (by simp)
      | k + 2, hu => exact absurd (show (none : Option Taking) = some u from hu) (by simp)
    · exact absurd (hno 0 ⟨0, false, true⟩ rfl rfl) (by decide)
    · exact absurd hby (by decide)
  · exact legal_go rfl trivial
  · exact legal_go rfl trivial
  · exact legal_go rfl trivial
  · exact legal_go rfl trivial

/-- Both queues are configured, in two modes. -/
def configTwoModes : List PairStep :=
  [.enter 0 (.config 0 {}), .go 0, .go 0, .enter 0 (.config 1 { c2h := true, st := true }), .go 0,
    .go 0]

/-- Queue 0 is removed when a call has taken it, and added by another. -/
def removedMeanwhile : List PairStep :=
  [.enter 0 (addZero false false), .go 0, .go 0, .enter 1 (.remove 0 true), .go 1, .go 1, .go 1,
    .go 1, .enter 1 (addZero false false), .go 1, .go 1, .go 1, .go 1, .go 0, .go 0]

/-- **Pairs with two modes.**  The two calls of `sideBySide`, for MM and ST, each see the other
queue not enabled; `qdma_queue_config` does not look at it at all; and a queue that is removed
while a call of `qdma_queue_add` has taken it is handed out to the next one as well. -/
theorem pair_modes_differ :
    ¬ PairLaw ((sideBySide true).foldl PairSys.step onePair) ∧
      ¬ PairLaw (configTwoModes.foldl PairSys.step onePair) ∧
      ¬ PairLaw (removedMeanwhile.foldl PairSys.step onePair) := by
  refine ⟨fun h => ?_, fun h => ?_, fun h => ?_⟩
  · have hmode := h.mode (fun k call hc => ?_) 0 (by decide +kernel) (by decide +kernel)
      (by decide +kernel)
    · exact absurd hmode (by decide +kernel)
    · match k, hc with
      | 0, hc => exact absurd (show (none : Option UnderWay) = some call from hc) (by simp)
      | 1, hc => exact absurd (show (none : Option UnderWay) = some call from hc) (by simp)
      | k + 2, hc => exact absurd (show (none : Option UnderWay) = some call from hc) (by simp)
  · have hmode := h.mode (fun k call hc => ?_) 0 (by decide +kernel) (by decide +kernel)
      (by decide +kernel)
    · exact absurd hmode (by decide +kernel)
    · match k, hc with
      | 0, hc => exact absurd (show (none : Option UnderWay) = some call from hc) (by simp)
      | k + 1, hc => exact absurd (show (none : Option UnderWay) = some call from hc) (by simp)
  · have htwo : (removedMeanwhile.foldl PairSys.step onePair).given 0 = 2 := by decide +kernel
    have honce := h.once 0
    rw [htwo] at honce
    exact absurd honce (by decide)

end Qdma
