/-
# The ids of queues

A queue has three numbers.  Its handle is what `qdma_queue_add` returns and
`qdma_device_get_descq_by_id` resolves: the index of a H2C queue, or `qmax` plus that of a C2H
queue.  Its hardware id is the base of the device plus the index; a VF learns the base only when
its first queue is added, and `device_set_qrange` then adds it to the ids.

`queue_ids` says that the numbers identify the queues in every run in which the resources of the
device can be prepared when a queue is added; `id_without_handle` is a run in which they cannot.
Nothing calls `qdma_queue_config`, which enables a queue without a handle.
-/
import Qdma.IntrAgg
import Qdma.OpFrame

namespace Qdma

open Exec

/-! ## The device -/

/-- What `qdma_device_prep_q_resource` is answered: the result of asking the PF for a range and
the base it gives (VF only), the answers of the allocator to `intr_ring_setup`, and the result of
`qdma_intr_context_setup`. -/
structure PrepEnv where
  fmapRv : ℤ := 0
  fmapQbase : ℕ := 0
  allocOk : ℕ → Bool := fun _ => true
  ctxRv : ℤ := 0

/-- A device with the hardware ids of its queues; `given` has the handle `qdma_queue_add` returned
for a queue that has been added and not been removed since. -/
structure IdDev where
  dev : QdmaDev
  conf : IntrConf
  initQrange : Bool := false
  qidxHw : QRef → ℕ
  given : QRef → Option ℕ := fun _ => none

/-- The number of the queue a pointer to a `descq` stands for. -/
def QdmaDev.refId (x : QdmaDev) (q : QRef) : ℕ := x.queueId q.1 q.2

/-- The queues, the base and the hardware ids after `qdma_device_init`.  `funcId` is a `u8`. -/
def IdDev.deviceInit (x : QdmaDev) (conf : IntrConf) (funcId : Fin 256) : IdDev :=
  let qbase := if x.vf then 0 else u16 (funcId.val * qdmaQPerPfMax)
  { dev :=
      { x with
        descq := fun id => { conf := { qidx := if id < x.qmax then id else id - x.qmax } }
        h2cQcnt := 0
        c2hQcnt := 0
        gone := false }
    conf := { conf with qbase := qbase }
    qidxHw := fun q => u32 (qbase + q.2) }

/-- `device_set_qrange`. -/
def IdDev.deviceSetQrange (s : IdDev) (env : PrepEnv) : IdDev × ℤ :=
  if s.dev.vf then
    if env.fmapRv < 0 then (s, env.fmapRv)
    else
      let qbase := u16 env.fmapQbase
      ({ s with
          conf := { s.conf with qbase := qbase }
          qidxHw := fun q => if q.2 < s.dev.qmax then u32 (s.qidxHw q + qbase) else s.qidxHw q
          initQrange := true }, 0)
  else ({ s with initQrange := true }, 0)

/-- `qdma_device_prep_q_resource`.  `intr_ring_setup` fails only after it has set
`intr_coal_en`. -/
def IdDev.prepQResource (s : IdDev) (env : PrepEnv) : IdDev × ℤ :=
  if s.initQrange then (s, 0)
  else
    let (s, rv) := s.deviceSetQrange env
    if rv < 0 then (s, rv)
    else
      match intrRingSetup s.conf env.allocOk with
      | .error rv => ({ s with dev := { s.dev with intrCoalEn := true } }, rv)
      | .ok (coal, _) =>
          ({ s with dev := { s.dev with intrCoalEn := coal } }, if coal then env.ctxRv else 0)

/-- The queue that a call of `qdma_queue_add` enables. -/
def QdmaDev.addPlace (x : QdmaDev) (c : AddCall) : Option (QueueConf × ℕ) :=
  match c.qconf with
  | none => none
  | some qconf =>
      if c.qhndl = true ∧ (if qconf.st then x.stModeEn else x.mmModeEn) = true ∧ x.gone = false ∧
          ¬ (qconf.qidx ≠ qdmaQueueIdxInvalid ∧ qconf.qidx ≥ x.qmax) ∧
          x.qcnt qconf.c2h < x.qmax then
        match x.findQueue qconf with
        | .ok i => some (qconf, i)
        | .error _ => none
      else none

/-- The handle it returns, read off the queue it has configured. -/
def QdmaDev.handle (x : QdmaDev) (c2h : Bool) (id : ℕ) : ℕ :=
  (x.descq id).conf.qidx + if c2h then x.qmax else 0

/-- `qdma_queue_add`.  The resources are prepared after the queue is enabled, but neither looks at
what the other does. -/
def IdDev.queueAdd (s : IdDev) (c : AddCall) (env : PrepEnv) : IdDev × ℤ :=
  match s.dev.addPlace c with
  | none => ({ s with dev := (s.dev.queueAdd c).1 }, (s.dev.queueAdd c).2)
  | some (qconf, i) =>
      let (s, prep) := s.prepQResource env
      let (x, rv) := s.dev.queueAdd { c with prep := prep }
      ({ s with
          dev := x
          given := if prep < 0 then s.given
            else Function.update s.given (qconf.c2h, i)
              (some (x.handle qconf.c2h (x.queueId qconf.c2h i))) }, rv)

/-- `qdma_device_get_descq_by_id`. -/
def QdmaDev.getDescqById (x : QdmaDev) (idx : ℕ) (init : Bool) : Option QRef :=
  if x.gone then none
  else
    let descq : Option QRef :=
      if idx ≥ x.qmax then
        if idx - x.qmax ≥ x.qmax then none else some (true, idx - x.qmax)
      else some (false, idx)
    descq.filter (fun q => !init || (x.descq (x.refId q)).enabled)

/-! ## Runs -/

/-- A call of the library. -/
inductive IdStep where
  | add (c : AddCall) (env : PrepEnv)
  | config (qid : ℕ) (qconf : QueueConf)
  | reconfig (id : ℕ) (qconf : QueueConf)
  | start (id : ℕ) (env : StartEnv)
  | stop (id : ℕ) (ctxCleared : Bool)
  | remove (id : ℕ) (ctxCleared : Bool)
  | cleanup (ctxCleared : ℕ → Bool)

/-- The device after the call.  Removing a queue ends its handle, and so does the end of the
device. -/
def IdDev.step (s : IdDev) : IdStep → IdDev
  | .add c env => (s.queueAdd c env).1
  | .config qid qconf => { s with dev := (s.dev.queueConfig qid qconf).1 }
  | .reconfig id qconf => { s with dev := s.dev.queueReconfig id qconf }
  | .start id env => { s with dev := (s.dev.queueStart id env).1 }
  | .stop id ctxCleared => { s with dev := s.dev.queueStop id ctxCleared }
  | .remove id ctxCleared =>
      { s with
        dev := s.dev.queueRemove id ctxCleared
        given := fun q => if s.dev.Has id ∧ s.dev.refId q = id then none else s.given q }
  | .cleanup ctxCleared =>
      { s with dev := s.dev.deviceCleanup ctxCleared, given := fun _ => none }

/-- The resources are there, or can be prepared: the PF of a VF answers, the rings are allocated
and, if there are any, their contexts programmed. -/
def PrepOk (s : IdDev) (env : PrepEnv) : Prop :=
  s.initQrange = true ∨
    (s.dev.vf = true → 0 ≤ env.fmapRv) ∧
      ∃ coal l, intrRingSetup s.conf env.allocOk = .ok (coal, l) ∧ (coal = true → 0 ≤ env.ctxRv)

/-- **The calls that keep the ids**: a call of `qdma_queue_add` that finds a queue finds the
resources, and `qdma_queue_config` enables no queue. -/
def IdLegal (s : IdDev) : IdStep → Prop
  | .add c env => s.dev.addPlace c ≠ none → PrepOk s env
  | .config qid _ => s.dev.gone = false → qid < 2 * s.dev.qmax → (s.dev.descq qid).enabled = true
  | _ => True

/-- **The numbers identify the queues.** -/
structure IdLaw (s : IdDev) : Prop where
  resolves : ∀ q h, s.given q = some h → ∀ init, s.dev.getDescqById h init = some q
  differ : ∀ q q' h, s.given q = some h → s.given q' = some h → q = q'
  other : ∀ idx init, (∀ q, s.given q ≠ some idx) → s.dev.getDescqById idx init = none ∨
    ∃ q, s.dev.getDescqById idx init = some q ∧ (s.dev.descq (s.dev.refId q)).enabled = false
  byHwQid : ∀ c2h, ∀ i < s.dev.qmax,
    qdmaDeviceGetDescqByHwQid s.conf (s.qidxHw (c2h, i)) c2h = (c2h, i)
  distinct : ∀ c2h, ∀ i < s.dev.qmax, ∀ j < s.dev.qmax,
    s.qidxHw (c2h, i) = s.qidxHw (c2h, j) → i = j
  range : ∀ c2h, ∀ i < s.dev.qmax,
    s.conf.qbase ≤ s.qidxHw (c2h, i) ∧ s.qidxHw (c2h, i) < s.conf.qbase + s.dev.qmax

/-! ## Handles -/

/-- The handle given for a queue is its number, and the enabled queues are those with a handle. -/
structure HandleInv (x : QdmaDev) (given : QRef → Option ℕ) : Prop where
  named : ∀ q h, given q = some h →
    x.gone = false ∧ q.2 < x.qmax ∧ h = x.refId q ∧ (x.descq (x.refId q)).enabled = true
  covers : x.gone = false → ∀ q : QRef, q.2 < x.qmax → (x.descq (x.refId q)).enabled = true →
    given q ≠ none

theorem refId_of_qmax {x x' : QdmaDev} (h : x'.qmax = x.qmax) (q : QRef) :
    x'.refId q = x.refId q := by
  unfold QdmaDev.refId QdmaDev.queueId
  rw [h]

theorem refId_inj {x : QdmaDev} {q q' : QRef} (hq : q.2 < x.qmax) (hq' : q'.2 < x.qmax)
    (h : x.refId q = x.refId q') : q = q' := by
  obtain ⟨h1, h2⟩ := queueId_inj hq hq' h
  exact Prod.ext h1 h2

/-- A number resolves to the queue it stands for. -/
theorem getDescqById_eq {x : QdmaDev} {idx : ℕ} {init : Bool} {q : QRef} :
    x.getDescqById idx init = some q ↔
      x.gone = false ∧ q.2 < x.qmax ∧ x.refId q = idx ∧
        (init = true → (x.descq (x.refId q)).enabled = true) := by
  unfold QdmaDev.getDescqById
  cases hg : x.gone with
  | true => simp
  | false =>
      simp only [Bool.false_eq_true, if_false, Option.filter_eq_some_iff, Bool.or_eq_true,
        Bool.not_eq_true', true_and]
      have hinit : (init = false ∨ (x.descq (x.refId q)).enabled = true) ↔
          (init = true → (x.descq (x.refId q)).enabled = true) := by
        cases init <;> simp
      rw [hinit, ← and_assoc]
      refine and_congr_left (fun _ => ?_)
      obtain ⟨c2h, i⟩ := q
      unfold QdmaDev.refId QdmaDev.queueId
      split_ifs <;> cases c2h <;> simp_all <;> omega

theorem HandleInv.same {x x' : QdmaDev} {given : QRef → Option ℕ} (h : HandleInv x given)
    (hs : SameIds x x') : HandleInv x' given := by
  constructor
  · intro q n hq
    rw [hs.gone, hs.qmax, refId_of_qmax hs.qmax, hs.enabled]
    exact h.named q n hq
  · rw [hs.gone]
    intro hg q hlt hen
    rw [refId_of_qmax hs.qmax, hs.enabled] at hen
    exact h.covers hg q (hs.qmax ▸ hlt) hen

/-- **A queue is added** and its number given out. -/
theorem HandleInv.give {x x' : QdmaDev} {given : QRef → Option ℕ} (h : HandleInv x given)
    {q : QRef} (hlt : q.2 < x.qmax) (hgone : x'.gone = false) (hg0 : x.gone = false)
    (hqmax : x'.qmax = x.qmax)
    (hself : (x'.descq (x.refId q)).enabled = true)
    (hother : ∀ id, id ≠ x.refId q → (x'.descq id).enabled = (x.descq id).enabled) :
    HandleInv x' (Function.update given q (some (x.refId q))) := by
  constructor
  · intro q' n hq'
    rw [refId_of_qmax hqmax, hqmax]
    by_cases heq : q' = q
    · subst heq
      rw [Function.update_self] at hq'
      exact ⟨hgone, hlt, (Option.some.inj hq').symm, hself⟩
    · rw [Function.update_of_ne heq] at hq'
      obtain ⟨-, hlt', hn, hen⟩ := h.named q' n hq'
      refine ⟨hgone, hlt', hn, ?_⟩
      rw [hother _ (fun hid => heq (refId_inj hlt' hlt hid))]
      exact hen
  · intro _ q' hlt' hen
    rw [hqmax] at hlt'
    rw [refId_of_qmax hqmax] at hen
    by_cases heq : q' = q
    · subst heq
      rw [Function.update_self]
      exact Option.some_ne_none _
    · rw [Function.update_of_ne heq]
      rw [hother _ (fun hid => heq (refId_inj hlt' hlt hid))] at hen
      exact h.covers hg0 q' hlt' hen

/-- **A queue is removed**, and its handle ends. -/
theorem HandleInv.take {x x' : QdmaDev} {given : QRef → Option ℕ} (h : HandleInv x given) {id : ℕ}
    (hgone : x'.gone = x.gone) (hqmax : x'.qmax = x.qmax)
    (hself : (x'.descq id).enabled = false)
    (hother : ∀ id', id' ≠ id → (x'.descq id').enabled = (x.descq id').enabled) :
    HandleInv x' (fun q => if x.refId q = id then none else given q) := by
  constructor
  · intro q n hq
    rw [refId_of_qmax hqmax, hqmax, hgone]
    by_cases heq : x.refId q = id
    · rw [if_pos heq] at hq
      exact absurd hq.symm (Option.some_ne_none n)
    · rw [if_neg heq] at hq
      rw [hother _ heq]
      exact h.named q n hq
  · intro hg q hlt hen
    rw [hgone] at hg
    rw [hqmax] at hlt
    rw [refId_of_qmax hqmax] at hen
    by_cases heq : x.refId q = id
    · rw [heq, hself] at hen
      exact absurd hen (by decide)
    · rw [if_neg heq]
      rw [hother _ heq] at hen
      exact h.covers hg q hlt hen

/-! ## Adding a queue -/

theorem addPlace_some {x : QdmaDev} {c : AddCall} {qconf : QueueConf} {i : ℕ}
    (h : x.addPlace c = some (qconf, i)) : x.AddCounts c qconf ∧ x.findQueue qconf = .ok i := by
  unfold QdmaDev.addPlace at h
  cases hconf : c.qconf with
  | none =>
      rw [hconf] at h
      exact absurd h (by simp)
  | some qconf' =>
      rw [hconf] at h
      simp only at h
      by_cases hgo : c.qhndl = true ∧ (if qconf'.st then x.stModeEn else x.mmModeEn) = true ∧
          x.gone = false ∧ ¬ (qconf'.qidx ≠ qdmaQueueIdxInvalid ∧ qconf'.qidx ≥ x.qmax) ∧
          x.qcnt qconf'.c2h < x.qmax
      swap
      · rw [if_neg hgo] at h
        exact absurd h (by simp)
      rw [if_pos hgo] at h
      cases hf : x.findQueue qconf' with
      | error e =>
          rw [hf] at h
          exact absurd h (by simp)
      | ok j =>
          rw [hf] at h
          obtain ⟨rfl, rfl⟩ := Prod.mk.inj (Option.some.inj h)
          exact ⟨⟨hconf, hgo⟩, hf⟩

theorem addPlace_of_ok {x : QdmaDev} {c : AddCall} {qconf : QueueConf} {i : ℕ}
    (h : x.AddCounts c qconf) (hf : x.findQueue qconf = .ok i) :
    x.addPlace c = some (qconf, i) := by
  unfold QdmaDev.addPlace
  rw [h.1]
  simp only
  rw [if_pos h.2, hf]

/-- A call that enables no queue changes none. -/
theorem queueAdd_noPlace {x : QdmaDev} {c : AddCall} (h : x.addPlace c = none) :
    SameIds x (x.queueAdd c).1 := by
  rcases queueAdd_cases x c with ⟨qconf, hcounts, heq⟩ | ⟨-, ⟨n, hsame, -⟩, -⟩
  swap
  · rw [hsame]
    exact ⟨rfl, rfl, rfl, fun _ => rfl⟩
  rw [heq]
  unfold QdmaDev.queueClaim
  rw [findQueue_count]
  cases hf : x.findQueue qconf with
  | ok i =>
      rw [addPlace_of_ok hcounts hf] at h
      exact absurd h (by simp)
  | error e =>
      obtain ⟨rv, text⟩ := e
      simp only
      split_ifs
      · exact count_sameIds x _
      · exact (count_sameIds x _).trans (uncount_sameIds _ _)

/-- **A call with a place** counts the queue there and enables it; with the resources there, it
configures it as well. -/
theorem queueAdd_claims {x : QdmaDev} {c : AddCall} {qconf : QueueConf} {i : ℕ}
    (h : x.addPlace c = some (qconf, i)) :
    let id := x.queueId qconf.c2h i
    let y := (x.count qconf.c2h).setDescq id
      { (x.count qconf.c2h).descq id with enabled := true }
    let z := y.setDescq id (qdmaDescqConfig (y.descq id) { qconf with qidx := i } false y.numVecs)
    x.queueAdd c = if c.prep < 0 then (y.uncount qconf.c2h, c.prep)
      else (z, if truncated c.buflen (z.addedText qconf i) then c.prep else 0) := by
  obtain ⟨hcounts, hf⟩ := addPlace_some h
  rcases queueAdd_cases x c with ⟨qconf', hcounts', heq⟩ | ⟨hno, -, -⟩
  swap
  · exact absurd hcounts (hno qconf)
  obtain rfl : qconf' = qconf := Option.some.inj (hcounts'.1.symm.trans hcounts.1)
  have hid : (x.count qconf'.c2h).queueId qconf'.c2h i = x.queueId qconf'.c2h i := by
    unfold QdmaDev.queueId
    rw [(count_sameIds x qconf'.c2h).qmax]
  rw [heq]
  unfold QdmaDev.queueClaim
  rw [findQueue_count, hf]
  simp only
  rw [hid]

/-- A call that enables one, with the resources there, returns its number. -/
theorem queueAdd_place {x : QdmaDev} {c : AddCall} {qconf : QueueConf} {i : ℕ}
    (h : x.addPlace c = some (qconf, i)) (hprep : 0 ≤ c.prep) :
    i < x.qmax ∧ x.gone = false ∧
      (x.queueAdd c).1.vf = x.vf ∧ (x.queueAdd c).1.qmax = x.qmax ∧
      (x.queueAdd c).1.gone = x.gone ∧
      ((x.queueAdd c).1.descq (x.queueId qconf.c2h i)).enabled = true ∧
      ((x.queueAdd c).1.descq (x.queueId qconf.c2h i)).conf.qidx = i ∧
      ∀ id, id ≠ x.queueId qconf.c2h i →
        ((x.queueAdd c).1.descq id).enabled = (x.descq id).enabled := by
  obtain ⟨hcounts, hf⟩ := addPlace_some h
  have hi := (findQueue_ok hf hcounts.2.2.2.2.1).1
  have hs := count_sameIds x qconf.c2h
  rw [queueAdd_claims h, if_neg (Int.not_lt.mpr hprep)]
  refine ⟨hi, hcounts.2.2.2.1, hs.vf, hs.qmax, hs.gone, ?_, ?_, fun id hne => ?_⟩
  · rw [setDescq_self, setDescq_self]
    rfl
  · rw [setDescq_self]
    rfl
  · rw [setDescq_of_ne _ _ hne, setDescq_of_ne _ _ hne]
    exact hs.enabled id

/-- The handle it returns is the number. -/
theorem queueAdd_handle {x : QdmaDev} {c : AddCall} {qconf : QueueConf} {i : ℕ}
    (h : x.addPlace c = some (qconf, i)) (hprep : 0 ≤ c.prep) :
    (x.queueAdd c).1.handle qconf.c2h ((x.queueAdd c).1.queueId qconf.c2h i)
      = x.refId (qconf.c2h, i) := by
  obtain ⟨-, -, -, hqmax, -, -, hidx, -⟩ := queueAdd_place h hprep
  rw [show (x.queueAdd c).1.queueId qconf.c2h i = x.queueId qconf.c2h i from
    refId_of_qmax hqmax (qconf.c2h, i)]
  unfold QdmaDev.handle
  rw [hidx, hqmax]
  show _ = x.queueId qconf.c2h i
  unfold QdmaDev.queueId
  cases qconf.c2h with
  | false => rfl
  | true => exact Nat.add_comm i _

/-! ## Preparing the resources -/

/-- The hardware ids are the base and the index. -/
structure HwInv (s : IdDev) : Prop where
  qmax : s.dev.qmax < 2 ^ 16
  qbase : s.conf.qbase < 2 ^ 16
  unset : s.dev.vf = true → s.initQrange = false → s.conf.qbase = 0
  ids : ∀ c2h, ∀ i < s.dev.qmax, s.qidxHw (c2h, i) = s.conf.qbase + i

theorem HwInv.dev {s : IdDev} (h : HwInv s) {x : QdmaDev} {given : QRef → Option ℕ}
    (hvf : x.vf = s.dev.vf) (hqmax : x.qmax = s.dev.qmax) :
    HwInv { s with dev := x, given := given } := by
  refine ⟨?_, h.qbase, ?_, ?_⟩
  · show x.qmax < 2 ^ 16
    rw [hqmax]
    exact h.qmax
  · show x.vf = true → _
    rw [hvf]
    exact h.unset
  · show ∀ c2h, ∀ i < x.qmax, _
    rw [hqmax]
    exact h.ids

/-- **The base is added once**: to ids that are only indices. -/
theorem HwInv.setQrange {s : IdDev} (h : HwInv s) (hnot : s.initQrange = false) (env : PrepEnv) :
    HwInv (s.deviceSetQrange env).1 := by
  unfold IdDev.deviceSetQrange
  by_cases hvf : s.dev.vf = true
  swap
  · rw [if_neg hvf]
    exact ⟨h.qmax, h.qbase, fun hv => absurd hv hvf, h.ids⟩
  rw [if_pos hvf]
  split_ifs with hrv
  · exact h
  have hzero := h.unset hvf hnot
  have hbase : u16 env.fmapQbase < 2 ^ 16 := Nat.mod_lt _ (by decide)
  refine ⟨h.qmax, hbase, fun _ hf => absurd (show true = false from hf) (by decide), ?_⟩
  show ∀ c2h, ∀ i < s.dev.qmax, _
  intro c2h i hi
  show (if i < s.dev.qmax then u32 (s.qidxHw (c2h, i) + u16 env.fmapQbase) else _) = _
  have hq := h.qmax
  rw [if_pos hi, h.ids c2h i hi, hzero, u32_of_lt]
  · show 0 + i + u16 env.fmapQbase = u16 env.fmapQbase + i
    omega
  · omega

/-- What preparing the resources leaves. -/
structure Prepared (s s' : IdDev) : Prop where
  hw : HwInv s → HwInv s'
  dev : ∃ b, s'.dev = { s.dev with intrCoalEn := b }
  given : s'.given = s.given

theorem setQrange_prepared {s : IdDev} (hnot : s.initQrange = false) (env : PrepEnv) :
    Prepared s (s.deviceSetQrange env).1 := by
  refine ⟨fun h => h.setQrange hnot env, ⟨s.dev.intrCoalEn, ?_⟩, ?_⟩
  · unfold IdDev.deviceSetQrange
    split_ifs <;> rfl
  · unfold IdDev.deviceSetQrange
    split_ifs <;> rfl

/-- `qdma_device_prep_q_resource` sets the range at most once. -/
theorem prepQResource_prepared (s : IdDev) (env : PrepEnv) :
    Prepared s (s.prepQResource env).1 := by
  unfold IdDev.prepQResource
  by_cases hinit : s.initQrange = true
  · rw [if_pos hinit]
    exact ⟨fun h => h, ⟨s.dev.intrCoalEn, rfl⟩, rfl⟩
  rw [if_neg hinit]
  have hset := setQrange_prepared (Bool.eq_false_iff.mpr hinit) env
  generalize s.deviceSetQrange env = r at hset
  obtain ⟨s1, rv⟩ := r
  simp only at hset ⊢
  have hcoal : ∀ b, Prepared s { s1 with dev := { s1.dev with intrCoalEn := b } } := by
    intro b
    refine ⟨fun h => (hset.hw h).dev rfl rfl, ⟨b, ?_⟩, hset.given⟩
    obtain ⟨b', hb'⟩ := hset.dev
    rw [hb']
  split_ifs
  · exact hset
  · cases intrRingSetup s1.conf env.allocOk with
    | error e => exact hcoal true
    | ok p => exact hcoal p.1

/-- It succeeds if the resources can be prepared. -/
theorem prepQResource_ok {s : IdDev} {env : PrepEnv} (h : PrepOk s env) :
    0 ≤ (s.prepQResource env).2 := by
  unfold IdDev.prepQResource
  by_cases hinit : s.initQrange = true
  · rw [if_pos hinit]
  rw [if_neg hinit]
  obtain ⟨hfmap, coal, l, hring, hctx⟩ := h.resolve_left hinit
  have hset : (s.deviceSetQrange env).2 = 0 ∧
      intrRingSetup (s.deviceSetQrange env).1.conf env.allocOk = .ok (coal, l) := by
    unfold IdDev.deviceSetQrange
    by_cases hvf : s.dev.vf = true
    · rw [if_pos hvf, if_neg (Int.not_lt.mpr (hfmap hvf))]
      exact ⟨rfl, hring⟩
    · rw [if_neg hvf]
      exact ⟨rfl, hring⟩
  obtain ⟨hrv, hring'⟩ := hset
  simp only
  rw [hrv, if_neg (lt_irrefl (0 : ℤ)), hring']
  simp only
  split_ifs with hc
  · exact hctx hc
  · exact le_rfl

/-! ## Removing a queue -/

/-- `qdma_queue_remove` disables its queue. -/
theorem queueRemove_enabled {x : QdmaDev} {id : ℕ} (hhas : x.Has id) (ctxCleared : Bool) :
    (x.queueRemove id ctxCleared).vf = x.vf ∧ (x.queueRemove id ctxCleared).qmax = x.qmax ∧
      (x.queueRemove id ctxCleared).gone = x.gone ∧
      ((x.queueRemove id ctxCleared).descq id).enabled = false ∧
      ∀ id', id' ≠ id →
        ((x.queueRemove id ctxCleared).descq id').enabled = (x.descq id').enabled := by
  unfold QdmaDev.queueRemove
  rw [if_pos hhas]
  simp only
  set x1 := x.setDescq id { x.descq id with inited := false, online := false } with hx1
  have h1 : SameIds x x1 := setDescq_sameIds x rfl
  have h2 := h1.trans (descqCleanup_sameIds x1 id ctxCleared)
  set x2 := x1.descqCleanup id ctxCleared with hx2
  have h3 := uncount_sameIds (x2.setDescq id { x2.descq id with enabled := false })
    (((x2.setDescq id { x2.descq id with enabled := false }).descq id).conf.c2h)
  refine ⟨h3.vf.trans h2.vf, h3.qmax.trans h2.qmax, h3.gone.trans h2.gone, ?_, fun id' hne => ?_⟩
  · rw [h3.enabled, setDescq_self]
  · rw [h3.enabled, setDescq_of_ne _ _ hne]
    exact h2.enabled id'

theorem foldl_sameIds (f : QdmaDev → ℕ → QdmaDev) (hf : ∀ x id, SameIds x (f x id))
    (ids : List ℕ) (x : QdmaDev) : SameIds x (ids.foldl f x) := by
  induction ids generalizing x with
  | nil => exact .refl x
  | cons id ids ih => exact (hf x id).trans (ih _)

theorem deviceCleanup_gone (x : QdmaDev) (ctxCleared : ℕ → Bool) :
    (x.deviceCleanup ctxCleared).vf = x.vf ∧ (x.deviceCleanup ctxCleared).qmax = x.qmax ∧
      (x.deviceCleanup ctxCleared).gone = true := by
  unfold QdmaDev.deviceCleanup
  split_ifs with hg
  · exact ⟨rfl, rfl, hg⟩
  · have hstop := foldl_sameIds (fun x id => x.queueStop id (ctxCleared id))
      (fun x id => queueStop_sameIds x id _) (List.range (2 * x.qmax)) x
    have hclean := hstop.trans (foldl_sameIds (fun x id => x.descqCleanup id (ctxCleared id))
      (fun x id => descqCleanup_sameIds x id _) (List.range (2 * x.qmax)) _)
    exact ⟨hclean.vf, hclean.qmax, rfl⟩

/-- `qdma_queue_config` does nothing to a queue that is enabled. -/
theorem queueConfig_enabled {x : QdmaDev} {qid : ℕ}
    (h : x.gone = false → qid < 2 * x.qmax → (x.descq qid).enabled = true) (qconf : QueueConf) :
    (x.queueConfig qid qconf).1 = x := by
  unfold QdmaDev.queueConfig
  split_ifs with h1 h2 h3
  · rfl
  · rfl
  · rfl
  · exact absurd (h (Bool.eq_false_iff.mpr h1) (Nat.lt_of_not_ge h2)) h3

/-! ## All calls -/

/-- **The invariant**: of the hardware ids and of the handles. -/
structure IdInv (s : IdDev) : Prop where
  hw : HwInv s
  handles : HandleInv s.dev s.given

theorem IdInv.same {s : IdDev} (h : IdInv s) {x : QdmaDev} (hs : SameIds s.dev x) :
    IdInv { s with dev := x } :=
  ⟨h.hw.dev hs.vf hs.qmax, h.handles.same hs⟩

/-- Preparing the resources changes neither the place of a queue nor what is in use. -/
theorem idQueueAdd_place {s : IdDev} {c : AddCall} {qconf : QueueConf} {i : ℕ} (env : PrepEnv)
    (hp : s.dev.addPlace c = some (qconf, i)) :
    ∃ b, let x : QdmaDev := { s.dev with intrCoalEn := b }
      let call : AddCall := { c with prep := (s.prepQResource env).2 }
      x.addPlace call = some (qconf, i) ∧ (s.queueAdd c env).1.dev = (x.queueAdd call).1 ∧
        (s.queueAdd c env).2 = (x.queueAdd call).2 := by
  obtain ⟨-, ⟨b, hdev⟩, -⟩ := prepQResource_prepared s env
  unfold IdDev.queueAdd
  rw [hp]
  simp only
  rw [hdev]
  exact ⟨b, hp, rfl, rfl⟩

theorem IdInv.add {s : IdDev} (h : IdInv s) {c : AddCall} {env : PrepEnv}
    (hok : s.dev.addPlace c ≠ none → PrepOk s env) : IdInv (s.queueAdd c env).1 := by
  unfold IdDev.queueAdd
  cases hp : s.dev.addPlace c with
  | none => exact h.same (queueAdd_noPlace hp)
  | some p =>
      obtain ⟨qconf, i⟩ := p
      have hrv := prepQResource_ok (hok (by rw [hp]; exact Option.some_ne_none _))
      have hprep := prepQResource_prepared s env
      generalize s.prepQResource env = r at hrv hprep
      obtain ⟨s1, prep⟩ := r
      obtain ⟨hhw, ⟨b, hdev⟩, hgiven⟩ := hprep
      simp only at hrv hhw hdev hgiven ⊢
      have hsame : SameIds s.dev s1.dev := by
        rw [hdev]
        exact ⟨rfl, rfl, rfl, fun _ => rfl⟩
      have hplace : s1.dev.addPlace { c with prep := prep } = some (qconf, i) := by
        rw [hdev]
        exact hp
      have hh := h.handles.same hsame
      obtain ⟨hi, hg, hvf, hqmax, hgone, hself, -, hother⟩ := queueAdd_place hplace hrv
      rw [if_neg (Int.not_lt.mpr hrv), hgiven]
      rw [queueAdd_handle hplace hrv]
      constructor
      · exact (hhw h.hw).dev hvf hqmax
      · exact hh.give hi (hgone.trans hg) hg hqmax hself hother

/-- **One call.** -/
theorem IdInv.step {s : IdDev} (h : IdInv s) {e : IdStep} (hok : IdLegal s e) :
    IdInv (s.step e) := by
  cases e with
  | add c env => exact h.add hok
  | config qid qconf =>
      show IdInv { s with dev := (s.dev.queueConfig qid qconf).1 }
      rw [queueConfig_enabled hok qconf]
      exact h
  | reconfig id qconf => exact h.same (queueReconfig_sameIds s.dev id qconf)
  | start id env => exact h.same (queueStart_sameIds s.dev id env)
  | stop id ctxCleared => exact h.same (queueStop_sameIds s.dev id ctxCleared)
  | remove id ctxCleared =>
      by_cases hhas : s.dev.Has id
      · obtain ⟨hvf, hqmax, hgone, hself, hother⟩ := queueRemove_enabled hhas ctxCleared
        have htake := h.handles.take hgone hqmax hself hother
        refine ⟨h.hw.dev hvf hqmax, ?_⟩
        show HandleInv (s.dev.queueRemove id ctxCleared)
          (fun q => if s.dev.Has id ∧ s.dev.refId q = id then none else s.given q)
        simp only [hhas, true_and]
        exact htake
      · show IdInv { s with
          dev := s.dev.queueRemove id ctxCleared
          given := fun q => if s.dev.Has id ∧ s.dev.refId q = id then none else s.given q }
        have hidle : s.dev.queueRemove id ctxCleared = s.dev := if_neg hhas
        simp only [hhas, hidle, false_and, if_false]
        exact h
  | cleanup ctxCleared =>
      obtain ⟨hvf, hqmax, hgone⟩ := deviceCleanup_gone s.dev ctxCleared
      refine ⟨h.hw.dev hvf hqmax, fun q n hq => ?_, fun hg => ?_⟩
      · exact absurd (show none = some n from hq) (by simp)
      · rw [show (s.step (.cleanup ctxCleared)).dev.gone = true from hgone] at hg
        exact absurd hg (by decide)

/-- **What the invariant says about the numbers.** -/
theorem IdInv.law {s : IdDev} (h : IdInv s) : IdLaw s := by
  have hq := h.hw.qmax
  have hb := h.hw.qbase
  constructor
  · intro q n hq init
    obtain ⟨hg, hlt, rfl, hen⟩ := h.handles.named q n hq
    exact getDescqById_eq.mpr ⟨hg, hlt, rfl, fun _ => hen⟩
  · intro q q' n hq hq'
    obtain ⟨-, hlt, rfl, -⟩ := h.handles.named q n hq
    obtain ⟨-, hlt', heq, -⟩ := h.handles.named q' _ hq'
    exact refId_inj hlt hlt' heq
  · intro idx init hno
    cases hres : s.dev.getDescqById idx init with
    | none => exact .inl rfl
    | some q =>
        refine .inr ⟨q, rfl, ?_⟩
        obtain ⟨hg, hlt, rfl, -⟩ := getDescqById_eq.mp hres
        by_contra hen
        obtain ⟨n, hn⟩ := Option.ne_none_iff_exists'.mp
          (h.handles.covers hg q hlt (Bool.not_eq_false _ ▸ hen))
        obtain ⟨-, -, rfl, -⟩ := h.handles.named q n hn
        exact hno q hn
  · intro c2h i hi
    unfold qdmaDeviceGetDescqByHwQid
    rw [h.hw.ids c2h i hi]
    refine Prod.ext rfl ?_
    show (s.conf.qbase + i + (2 ^ 64 - s.conf.qbase)) % 2 ^ 64 = i
    omega
  · intro c2h i hi j hj heq
    rw [h.hw.ids c2h i hi, h.hw.ids c2h j hj] at heq
    exact Nat.add_left_cancel heq
  · intro c2h i hi
    rw [h.hw.ids c2h i hi]
    constructor
    · exact Nat.le_add_right _ _
    · exact Nat.add_lt_add_left hi _

theorem deviceInit_inv {x : QdmaDev} (hq : x.qmax < 2 ^ 16) (conf : IntrConf)
    (funcId : Fin 256) : IdInv (IdDev.deviceInit x conf funcId) := by
  have hbase : (if x.vf then 0 else u16 (funcId.val * qdmaQPerPfMax)) < 2 ^ 16 := by
    split_ifs
    · decide
    · exact Nat.mod_lt _ (by decide)
  refine ⟨⟨hq, hbase, fun hvf _ => ?_, ?_⟩, fun q n hn => ?_, fun _ q _ hen => ?_⟩
  · exact if_pos hvf
  · show ∀ c2h, ∀ i < x.qmax, u32 (_ + i) = _ + i
    intro c2h i hi
    exact u32_of_lt (by omega)
  · exact absurd (show none = some n from hn) (by simp)
  · exact absurd (show false = true from hen) (by decide)

/-- **Handles and hardware ids identify one queue**, in every run in which the resources are there
whenever a queue is added. -/
theorem queue_ids {x : QdmaDev} (hq : x.qmax < 2 ^ 16) (conf : IntrConf) (funcId : Fin 256)
    {s : IdDev} {evs : List IdStep}
    (hr : Run IdDev.step IdLegal (IdDev.deviceInit x conf funcId) evs s) : IdLaw s :=
  (hr.invariant (deviceInit_inv hq conf funcId) (fun _ _ h hl => h.step hl)).law

/-- A device with four queue pairs and two vectors, which aggregates its interrupts. -/
def fourPairs (vf : Bool) : IdDev :=
  IdDev.deviceInit { pairDev 2 with vf := vf, qmax := 4 }
    { numVecs := 2, qsetsMax := 4, intrRngsz := 0, dvecStartIdx := 1, msixEntry := fun i => i,
      qbase := 0, qmax := 4 } 1

/-- On a VF, whose range is at 2048, a C2H queue is added and removed again, and one added for
good. -/
theorem queue_ids_vf : IdLaw
    ([.add { qconf := some { c2h := true, qidx := 1 } } { fmapQbase := 2048 }, .remove 5 true,
      .add { qconf := some { c2h := true, qidx := 0xFFFF } } {}].foldl IdDev.step
      (fourPairs true)) := by
  rw [List.foldl_cons, List.foldl_cons, List.foldl_cons, List.foldl_nil]
  refine queue_ids (by decide) _ 1 (((Run.nil.snoc ?_).snoc ?_).snoc ?_)
  · exact fun _ => .inr ⟨fun _ => le_rfl, true, _, rfl, fun _ => le_rfl⟩
  · trivial
  · exact fun _ => .inl (by decide +kernel)

/-- The first queue of a PF, without memory for the rings of its vectors. -/
def addWithoutRings : IdStep := .add { qconf := some {} } { allocOk := fun _ => false }

/-- **An id without a handle.**  The range of the PF is set, but `intr_ring_setup` fails, and with
it `qdma_queue_add`, which leaves queue 0 enabled. -/
theorem id_without_handle :
    ((fourPairs false).step addWithoutRings).initQrange = true ∧
      ((fourPairs false).queueAdd { qconf := some {} } { allocOk := fun _ => false }).2 = enomem ∧
      ¬ IdLaw ((fourPairs false).step addWithoutRings) := by
  refine ⟨by decide +kernel, by decide +kernel, fun h => ?_⟩
  have hfound : ((fourPairs false).step addWithoutRings).dev.getDescqById 0 true
      = some (false, 0) := by decide +kernel
  have hno : ∀ q, ((fourPairs false).step addWithoutRings).given q ≠ some 0 := by
    intro q
    exact fun hq => absurd (show none = some 0 from hq) (by simp)
  rcases h.other 0 true hno with hnone | ⟨q, hres, hen⟩
  · rw [hfound] at hnone
    exact absurd hnone (by simp)
  · obtain rfl : (false, 0) = q := Option.some.inj (hfound.symm.trans hres)
    exact absurd hen (by decide +kernel)

end Qdma
