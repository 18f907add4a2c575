/-
# The aggregated interrupt handler and what it touches

A device with its interrupt vectors through its whole life: `qdma_device_init`, the calls on its
queues, the end of it, and in between the device that writes anything to its aggregation ring and
the interrupts, any data vector at any time.

`data_intr_aggregate` takes an index into `intr_coal_list` from the number of the vector, an index
into the arrays of queues from what the device has written, and follows `intr_coal_list` wherever
it points.  `aggregate_safe_iff` says in which runs all that is in range: the null checks of the
code play no part in it.
-/
import Qdma.QueueIds
import Qdma.IntrCtxt

namespace Qdma

open Exec

/-! ## The device -/

/-- What `intr_coal_list` points to. -/
inductive CoalList where
  | null
  | live (l : List IntrCoalConf)
  | freed

/-- A device with its interrupts: the list of its rings, and the call of `data_intr_aggregate`
that holds the device lock, for vector `vidx`; `last` is the entry it has dispatched last. -/
structure AggDev where
  funcId : Fin 256
  lib : IdDev
  coal : CoalList := .null
  vidx : ℕ := 0
  call : Option IntrCall := none
  last : Option QdmaIntrRing := none

/-- What happens: `qdma_device_init`, `qdma_set_intr_rngsz`, another call of the library, the
device writes a slot of the ring, a data vector fires, the handler makes a round. -/
inductive AggEvent where
  | init (numVecs qsetsMax : ℕ)
  | setIntrRngsz (v : ℕ)
  | lib (e : IdStep)
  | write (slot : ℕ) (e : QdmaIntrRing)
  | irq (vidx : ℕ)
  | round

/-- The list after `qdma_device_prep_q_resource`.  When `intr_ring_setup` fails it stays what it
was. -/
def IdDev.prepCoal (s : IdDev) (env : PrepEnv) (coal : CoalList) : CoalList :=
  if s.initQrange then coal
  else
    let (s, rv) := s.deviceSetQrange env
    if rv < 0 then coal
    else
      match intrRingSetup s.conf env.allocOk with
      | .error _ => coal
      | .ok (true, l) => .live l
      | .ok (false, _) => .null

/-- The list after `intr_ring_teardown`, which does not clear the pointer. -/
def CoalList.teardown : CoalList → CoalList
  | .null => .null
  | _ => .freed

/-- The list after a call of the library. -/
def AggDev.coalAfter (s : AggDev) : IdStep → CoalList
  | .add c env =>
      match s.lib.dev.addPlace c with
      | none => s.coal
      | some _ => s.lib.prepCoal env s.coal
  | .cleanup _ =>
      if s.lib.dev.gone then s.coal
      else if s.lib.dev.intrCoalEn then s.coal.teardown
      else s.coal
  | _ => s.coal

/-- `dvec_start_idx` as `intr_setup` sets it.  A VF does not know its function yet. -/
def AggDev.dvec (s : AggDev) : ℕ := if s.lib.dev.vf ∨ s.funcId = 0 then 2 else 1

/-- `qdma_device_init`.  `qsets_max` is an `unsigned short`. -/
def AggDev.deviceInit (s : AggDev) (numVecs qsetsMax : ℕ) : AggDev :=
  if s.lib.dev.gone then
    { s with
      lib := IdDev.deviceInit
        { s.lib.dev with qmax := u16 qsetsMax, numVecs := numVecs, dvecStartIdx := s.dvec }
        { s.lib.conf with
          numVecs := numVecs
          qsetsMax := u16 qsetsMax
          qmax := u16 qsetsMax
          dvecStartIdx := s.dvec
          msixEntry := id }
        s.funcId }
  else s

/-- The handler of the vectors, on a list of rings. -/
def AggDev.sys (s : AggDev) (l : List IntrCoalConf) : IntrSys :=
  { conf := s.lib.conf, vidx := s.vidx, intrCoalList := l, call := s.call }

/-- `data_intr_aggregate` is entered for vector `v`: the vector has `data_intr_handler`, which
takes the device lock. -/
def AggDev.Fires (s : AggDev) (v : ℕ) : Prop :=
  s.lib.dev.gone = false ∧ s.call = none ∧ s.lib.dev.intrCoalEn = true ∧
    s.lib.conf.dvecStartIdx ≤ v ∧ v < s.lib.conf.numVecs

instance (s : AggDev) (v : ℕ) : Decidable (s.Fires v) :=
  inferInstanceAs (Decidable (_ ∧ _ ∧ _ ∧ _ ∧ _))

/-- The handler is entered.  With no list it returns. -/
def AggDev.irq (s : AggDev) (v : ℕ) : AggDev :=
  match s.coal with
  | .live l =>
      let s := { s with vidx := v, last := none }
      { s with call := ((s.sys l).step .irq).call }
  | _ => s

/-- It makes a round. -/
def AggDev.round (s : AggDev) : AggDev :=
  match s.coal, s.call with
  | .live l, some c =>
      match l[(s.sys l).coalIdx]? with
      | some e =>
          let ring := e.intrRingBase c.counter
          let r := (s.sys l).round e c
          { s with
            coal := .live r.intrCoalList
            call := r.call
            last := if ring.coalColor = e.color then some ring else s.last }
      | none => s
  | _, _ => s

/-- The device writes a slot.  The queue id has eleven bits. -/
def AggDev.write (s : AggDev) (slot : ℕ) (e : QdmaIntrRing) : AggDev :=
  match s.coal with
  | .live l =>
      { s with
        coal := .live (l.modify 0 (fun c => { c with
          intrRingBase :=
            Function.update c.intrRingBase slot { e with qid := e.qid % 2 ^ 11 } })) }
  | _ => s

/-- One step.  `qdma_device_cleanup` waits in `free_irq` for a handler that is running. -/
def AggDev.step (s : AggDev) : AggEvent → AggDev
  | .init numVecs qsetsMax => s.deviceInit numVecs qsetsMax
  | .setIntrRngsz v =>
      if s.lib.dev.gone then s
      else
        { s with
          lib := { s.lib with conf := (qdmaSetIntrRngsz s.lib.conf s.lib.initQrange v).2 } }
  | .lib (.cleanup ctxCleared) =>
      if s.call = none then
        { s with
          lib := s.lib.step (.cleanup ctxCleared)
          coal := s.coalAfter (.cleanup ctxCleared) }
      else s
  | .lib e => { s with lib := s.lib.step e, coal := s.coalAfter e }
  | .write slot e => s.write slot e
  | .irq v => if s.Fires v then s.irq v else s
  | .round => s.round

/-! ## Accesses -/

/-- An access: to an entry of `intr_coal_list`, to a slot of the ring of the vector, to a queue, or
to the work of a queue, which is scheduled. -/
inductive IntrAccess where
  | coal (i : ℕ)
  | slot (i : ℕ)
  | descq (q : QRef)
  | work (q : QRef)
  deriving DecidableEq

/-- What a step of the handler accesses. -/
def AggDev.touches (s : AggDev) : AggEvent → List IntrAccess
  | .irq v =>
      if s.Fires v then
        match s.coal with
        | .null =>
            -- a null pointer plus an offset is not null
            if v = s.lib.conf.dvecStartIdx then [] else [.coal (v - s.lib.conf.dvecStartIdx)]
        | _ => [.coal (v - s.lib.conf.dvecStartIdx)]
      else []
  | .round =>
      match s.coal, s.call with
      | .live l, some c =>
          match l[(s.sys l).coalIdx]? with
          | some e =>
              let ring := e.intrRingBase c.counter
              [.coal (s.sys l).coalIdx, .slot c.counter] ++
                if ring.coalColor = e.color then
                  (if ring.errorInt then []
                    else [.work (qdmaDeviceGetDescqByHwQid s.lib.conf ring.qid ring.intrType)]) ++
                  (if u32 (e.cidx + 1) = e.intrRngNumEntries then [.coal 0] else [])
                else c.descq.toList.map .descq
          | none => []
      | _, _ => []
  | _ => []

/-- The queue is one of `h2c_descq` or `c2h_descq`. -/
def AggDev.HasDescq (s : AggDev) (q : QRef) : Prop := s.lib.dev.gone = false ∧ q.2 < s.lib.dev.qmax

/-- The access is to what there is; work is for queues that have been added. -/
def AggDev.Allows (s : AggDev) : IntrAccess → Prop
  | .coal i => ∃ l, s.coal = .live l ∧ i < l.length
  | .slot i => ∃ l e, s.coal = .live l ∧ l[(s.sys l).coalIdx]? = some e ∧ i < e.intrRngNumEntries
  | .descq q => s.HasDescq q
  | .work q => s.HasDescq q ∧ (s.lib.dev.descq (s.lib.dev.refId q)).enabled = true

/-- **All accesses of a step are in range.** -/
def AggDev.Safe (s : AggDev) (e : AggEvent) : Prop := ∀ a ∈ s.touches e, s.Allows a

/-! ## The condition -/

/-- An entry names a queue of the device. -/
def AggDev.Names (s : AggDev) (e : QdmaIntrRing) : Prop :=
  s.lib.conf.qbase ≤ e.qid ∧ e.qid < s.lib.conf.qbase + s.lib.dev.qmax

/-- The queue it names has been added. -/
def AggDev.NamesAdded (s : AggDev) (e : QdmaIntrRing) : Prop :=
  s.Names e ∧
    (s.lib.dev.descq (s.lib.dev.refId (e.intrType, e.qid - s.lib.conf.qbase))).enabled = true

/-- **What the handler relies on.**  Only the first data vector fires, and not while the list is
freed; the ring has entries; an entry that the handler meets and that is not an error names a
queue that has been added, and the entry before the end of a call names a queue. -/
def AggDev.Reliable (s : AggDev) : AggEvent → Prop
  | .irq v => s.Fires v → v = s.lib.conf.dvecStartIdx ∧ s.coal ≠ .freed
  | .round => ∀ l c e, s.coal = .live l → s.call = some c → l.head? = some e →
      e.intrRngNumEntries ≠ 0 ∧
        if (e.intrRingBase c.counter).coalColor = e.color then
          (e.intrRingBase c.counter).errorInt = false → s.NamesAdded (e.intrRingBase c.counter)
        else ∀ r ∈ s.last, s.Names r
  | _ => True

/-! ## The invariant -/

/-- A ring as `intr_ring_setup` and the handler leave it, whatever the device writes. -/
structure RingOk (e : IntrCoalConf) : Prop where
  num : e.intrRngNumEntries < 2 ^ 16
  cidx : e.intrRngNumEntries ≠ 0 → e.cidx < e.intrRngNumEntries
  qid : ∀ i, (e.intrRingBase i).qid < 2 ^ 11

/-- **What holds in every run** whose steps are as the handler relies on. -/
structure AggInv (s : AggDev) : Prop where
  qbase : s.lib.conf.qbase < 2 ^ 16
  qmax : s.lib.dev.qmax < 2 ^ 16
  live : ∀ l, s.coal = .live l → (∃ e, l = [e] ∧ RingOk e) ∧
    s.lib.dev.intrCoalEn = true ∧ s.lib.initQrange = true ∧ s.lib.dev.gone = false
  call : ∀ c ∈ s.call, ∃ e, s.coal = .live [e] ∧ s.vidx = s.lib.conf.dvecStartIdx ∧
    c.counter = e.cidx ∧ c.descq = s.last.map
      (fun r => qdmaDeviceGetDescqByHwQid s.lib.conf r.qid r.intrType)
  last : ∀ r ∈ s.last, r.qid < 2 ^ 11

/-- A ring that has just been set up. -/
theorem coalEntry_ok (x : IntrConf) (i : ℕ) : RingOk (x.coalEntry i) := by
  refine ⟨Nat.mod_lt _ (by decide), ?_, ?_⟩
  · intro hne
    exact Nat.pos_of_ne_zero hne
  · intro i
    show 0 < 2 ^ 11
    decide

/-- `qdma_device_get_descq_by_hw_qid` finds a queue in range exactly for the ids of the device. -/
theorem hasDescq_iff {s : AggDev} (h : AggInv s) (hgone : s.lib.dev.gone = false)
    {r : QdmaIntrRing} (hr : r.qid < 2 ^ 11) :
    s.HasDescq (qdmaDeviceGetDescqByHwQid s.lib.conf r.qid r.intrType) ↔ s.Names r := by
  have hb := h.qbase
  have hq := h.qmax
  unfold AggDev.HasDescq AggDev.Names qdmaDeviceGetDescqByHwQid
  simp only [hgone, true_and]
  omega

/-- The queue it finds is the one the entry names. -/
theorem hwQid_eq {x : IntrConf} (hb : x.qbase < 2 ^ 16) {r : QdmaIntrRing} (hr : r.qid < 2 ^ 11)
    (hle : x.qbase ≤ r.qid) :
    qdmaDeviceGetDescqByHwQid x r.qid r.intrType = (r.intrType, r.qid - x.qbase) := by
  unfold qdmaDeviceGetDescqByHwQid
  congr 1
  omega

/-- Work is for an entry that names a queue that has been added. -/
theorem allows_work_iff {s : AggDev} (h : AggInv s) (hgone : s.lib.dev.gone = false)
    {r : QdmaIntrRing} (hr : r.qid < 2 ^ 11) :
    s.Allows (.work (qdmaDeviceGetDescqByHwQid s.lib.conf r.qid r.intrType)) ↔ s.NamesAdded r := by
  unfold AggDev.NamesAdded
  rw [AggDev.Allows, hasDescq_iff h hgone hr]
  refine and_congr_right (fun hnames => ?_)
  rw [hwQid_eq h.qbase hr hnames.1]

/-! ## Safe is reliable -/

/-- **An interrupt.** -/
theorem irq_safe_iff {s : AggDev} (h : AggInv s) (v : ℕ) :
    s.Safe (.irq v) ↔ s.Reliable (.irq v) := by
  unfold AggDev.Safe AggDev.Reliable AggDev.touches
  by_cases hf : s.Fires v
  swap
  · simp only [hf, if_false, List.not_mem_nil, false_imp_iff, implies_true]
  have hge : s.lib.conf.dvecStartIdx ≤ v := hf.2.2.2.1
  simp only [hf, if_true, true_imp_iff]
  cases hc : s.coal with
  | null =>
      simp only
      by_cases hv : v = s.lib.conf.dvecStartIdx
      · simp [hv]
      · simp only [hv, if_false, List.mem_singleton, forall_eq, false_and, iff_false]
        rintro ⟨l, hl, -⟩
        rw [hc] at hl
        cases hl
  | live l =>
      obtain ⟨⟨e, rfl, -⟩, -⟩ := h.live l hc
      simp only [List.mem_singleton, forall_eq, ne_eq, reduceCtorEq, not_false_eq_true, and_true]
      constructor
      · rintro ⟨l', hl', hlt⟩
        rw [hc] at hl'
        cases hl'
        simp only [List.length_singleton] at hlt
        omega
      · rintro rfl
        exact ⟨[e], hc, by simp⟩
  | freed =>
      simp only [List.mem_singleton, forall_eq, ne_eq, not_true_eq_false, and_false, iff_false]
      rintro ⟨l, hl, -⟩
      rw [hc] at hl
      cases hl

/-- What a round touches, in a call. -/
theorem touches_round {s : AggDev} {e : IntrCoalConf} {c : IntrCall} (hcoal : s.coal = .live [e])
    (hcall : s.call = some c) (hidx : (s.sys [e]).coalIdx = 0) :
    s.touches .round = [.coal 0, .slot c.counter] ++
      if (e.intrRingBase c.counter).coalColor = e.color then
        (if (e.intrRingBase c.counter).errorInt then []
          else [.work (qdmaDeviceGetDescqByHwQid s.lib.conf (e.intrRingBase c.counter).qid
            (e.intrRingBase c.counter).intrType)]) ++
          (if u32 (e.cidx + 1) = e.intrRngNumEntries then [.coal 0] else [])
      else c.descq.toList.map .descq := by
  unfold AggDev.touches
  simp only [hcoal, hcall, hidx, List.getElem?_cons_zero]

/-- **The ring of a call in progress**: the only one of the list, at the index of the vector. -/
theorem AggInv.callRing {s : AggDev} (h : AggInv s) {c : IntrCall} (hcall : s.call = some c) :
    ∃ e, s.coal = .live [e] ∧ RingOk e ∧ (s.sys [e]).coalIdx = 0 ∧ c.counter = e.cidx ∧
      s.vidx = s.lib.conf.dvecStartIdx ∧ c.descq = s.last.map
        (fun r => qdmaDeviceGetDescqByHwQid s.lib.conf r.qid r.intrType) := by
  obtain ⟨e, hcoal, hvidx, hcounter, hdescq⟩ := h.call c hcall
  obtain ⟨⟨e', he', hring⟩, -⟩ := h.live [e] hcoal
  obtain rfl : e = e' := List.head_eq_of_cons_eq he'
  refine ⟨e, hcoal, hring, ?_, hcounter, hvidx, hdescq⟩
  show s.vidx - s.lib.conf.dvecStartIdx = 0
  rw [hvidx, Nat.sub_self]

/-- **A round.** -/
theorem round_safe_iff {s : AggDev} (h : AggInv s) : s.Safe .round ↔ s.Reliable .round := by
  cases hcall : s.call with
  | none =>
      -- without a call the round touches nothing, and the condition asks nothing
      have htouch : s.touches .round = [] := by
        unfold AggDev.touches
        rw [hcall]
        cases s.coal <;> rfl
      unfold AggDev.Safe AggDev.Reliable
      rw [htouch, hcall]
      simp
  | some c =>
      obtain ⟨e, hcoal, hring, hidx, hcounter, -, hdescq⟩ := h.callRing hcall
      have hgone : s.lib.dev.gone = false := (h.live [e] hcoal).2.2.2
      -- the entry of the list is there; its slot is, exactly if the ring has any
      have hcoal0 : s.Allows (.coal 0) := ⟨[e], hcoal, by simp⟩
      have hslot : s.Allows (.slot c.counter) ↔ e.intrRngNumEntries ≠ 0 := by
        rw [hcounter]
        constructor
        · rintro ⟨l, e', hl, hget, hlt⟩
          rw [hcoal] at hl
          cases hl
          rw [hidx, List.getElem?_cons_zero] at hget
          cases hget
          exact Nat.ne_of_gt (Nat.zero_lt_of_lt hlt)
        · intro hne
          exact ⟨[e], e, hcoal, by rw [hidx, List.getElem?_cons_zero], hring.cidx hne⟩
      -- where the call ends, the queue it has last found is written to
      have hend : (∀ a ∈ c.descq.toList.map IntrAccess.descq, s.Allows a) ↔
          ∀ r ∈ s.last, s.Names r := by
        rw [hdescq]
        cases hlast : s.last with
        | none => simp
        | some r =>
            simp only [Option.map_some, Option.toList_some, List.map_cons, List.map_nil,
              List.mem_singleton, forall_eq, Option.mem_some_iff, forall_eq']
            exact hasDescq_iff h hgone (h.last r hlast)
      -- the list, the call and the entry are known, so that the condition is about these
      have hred : s.Reliable .round ↔ e.intrRngNumEntries ≠ 0 ∧
          if (e.intrRingBase c.counter).coalColor = e.color then
            (e.intrRingBase c.counter).errorInt = false → s.NamesAdded (e.intrRingBase c.counter)
          else ∀ r ∈ s.last, s.Names r := by
        constructor
        · intro hr
          exact hr [e] c e hcoal hcall rfl
        · rintro hr l c' e' hl hc he
          rw [hcoal] at hl
          cases hl
          rw [hcall] at hc
          cases hc
          cases he
          exact hr
      rw [hred]
      unfold AggDev.Safe
      rw [touches_round hcoal hcall hidx, List.forall_mem_append, List.forall_mem_cons,
        List.forall_mem_singleton, hslot]
      simp only [hcoal0, true_and]
      -- an error, a work item or the end of the call, with the ring wrapped or not
      refine and_congr_right (fun _ => ?_)
      split_ifs with hcolor herr hwrap hwrap
      · simp [herr, hcoal0]
      · simp [herr]
      · rw [List.forall_mem_append, List.forall_mem_singleton, List.forall_mem_singleton,
          allows_work_iff h hgone (hring.qid _)]
        simp [herr, hcoal0]
      · rw [List.append_nil, List.forall_mem_singleton, allows_work_iff h hgone (hring.qid _)]
        simp [herr]
      · exact hend

/-- **A step is safe exactly if it is as the handler relies on.** -/
theorem safe_iff {s : AggDev} (h : AggInv s) (e : AggEvent) : s.Safe e ↔ s.Reliable e := by
  have hnone : s.touches e = [] → s.Reliable e → (s.Safe e ↔ s.Reliable e) := by
    intro ht hr
    unfold AggDev.Safe
    rw [ht]
    exact iff_of_true (fun _ ha => absurd ha List.not_mem_nil) hr
  cases e with
  | irq v => exact irq_safe_iff h v
  | round => exact round_safe_iff h
  | init n q => exact hnone rfl trivial
  | setIntrRngsz v => exact hnone rfl trivial
  | lib e => exact hnone rfl trivial
  | write slot e => exact hnone rfl trivial

/-! ## The invariant along a run -/

/-- The index and the colour of a ring of its own. -/
theorem advance_ok {s : IntrSys} {e : IntrCoalConf} {c : IntrCall} (h : RingOk e)
    (hlist : s.intrCoalList = [e]) (hidx : s.coalIdx = 0) (hne : e.intrRngNumEntries ≠ 0)
    (hcounter : c.counter = e.cidx) :
    ∃ e', s.advance e c = ({ s with intrCoalList := [e'] }, { c with counter := e'.cidx }) ∧
      RingOk e' := by
  have hpos := Nat.pos_of_ne_zero hne
  have hlt := h.cidx hne
  -- some lap has the colour of the ring
  obtain ⟨d, hcidx, hcolor⟩ : ∃ d, e.cidx = d % e.intrRngNumEntries ∧
      e.color = lap e.intrRngNumEntries d := by
    cases hc : e.color with
    | true => exact ⟨e.cidx, (Nat.mod_eq_of_lt hlt).symm, (lap_of_lt hlt).symm⟩
    | false =>
        refine ⟨e.cidx + e.intrRngNumEntries, ?_, ?_⟩
        · rw [Nat.add_mod_right, Nat.mod_eq_of_lt hlt]
        · rw [lap_add hpos, lap_of_lt hlt]
          rfl
  obtain ⟨e', hadv, rfl⟩ := IntrSys.advance_spec hlist hidx h.num hpos hcidx hcolor hcounter
  exact ⟨_, hadv, h.num, fun _ => Nat.mod_lt _ hpos, h.qid⟩

/-- **A round** leaves the ring in order, and the call with the entry it has dispatched. -/
theorem AggInv.round {s : AggDev} (h : AggInv s) (hr : s.Reliable .round) :
    AggInv (s.step .round) := by
  show AggInv s.round
  cases hcall : s.call with
  | none =>
      have hsame : s.round = s := by
        unfold AggDev.round
        rw [hcall]
        cases s.coal <;> rfl
      rw [hsame]
      exact h
  | some c =>
      obtain ⟨e, hcoal, hring, hidx, hcounter, hvidx, -⟩ := h.callRing hcall
      obtain ⟨-, hen, hinit, hgone⟩ := h.live [e] hcoal
      obtain ⟨hne, -⟩ := hr [e] c e hcoal hcall rfl
      unfold AggDev.round
      simp only [hcoal, hcall, hidx, List.getElem?_cons_zero]
      unfold IntrSys.round
      by_cases hcolor : (e.intrRingBase c.counter).coalColor = e.color
      -- an entry of the current colour is dispatched and the index moves on
      · obtain ⟨e1, hadv, hok⟩ := advance_ok (c := c)
          (s := { s.sys [e] with
            log := (s.sys [e]).log ++ [(e.intrRingBase c.counter).act (s.sys [e]).conf] })
          hring rfl hidx hne hcounter
        simp only [hcolor, if_true]
        rw [hadv]
        refine ⟨h.qbase, h.qmax, ?_, ?_, ?_⟩
        · rintro l hl
          cases hl
          exact ⟨⟨e1, rfl, hok⟩, hen, hinit, hgone⟩
        · rintro c' hc'
          cases hc'
          exact ⟨e1, rfl, hvidx, rfl, rfl⟩
        · rintro r hr'
          cases hr'
          exact hring.qid _
      -- an entry of the other colour ends the call
      · simp only [hcolor, if_false]
        refine ⟨h.qbase, h.qmax, ?_, ?_, h.last⟩
        · rintro l hl
          obtain rfl : [e] = l := by
            cases hd : c.descq with
            | none =>
                rw [hd] at hl
                cases hl
                rfl
            | some q =>
                rw [hd] at hl
                cases hl
                rfl
          exact ⟨⟨e, rfl, hring⟩, hen, hinit, hgone⟩
        · rintro c' hc'
          cases hd : c.descq with
          | none =>
              rw [hd] at hc'
              cases hc'
          | some q =>
              rw [hd] at hc'
              cases hc'

/-- A call starts at the index of the ring. -/
theorem irq_call {s : IntrSys} (hnone : s.call = none) {e : IntrCoalConf}
    (hget : s.intrCoalList[s.coalIdx]? = some e) {c : IntrCall} (hc : c ∈ (s.step .irq).call) :
    c.counter = e.cidx ∧ c.descq = none := by
  unfold IntrSys.step at hc
  simp only [hget] at hc
  split_ifs at hc
  · rw [hnone] at hc
    cases hc
  · cases hc
    exact ⟨rfl, rfl⟩

/-- **An interrupt** of the first data vector starts a call at the index of the ring. -/
theorem AggInv.irq {s : AggDev} (h : AggInv s) {v : ℕ} (hr : s.Reliable (.irq v)) :
    AggInv (s.step (.irq v)) := by
  show AggInv (if s.Fires v then s.irq v else s)
  by_cases hf : s.Fires v
  swap
  · rw [if_neg hf]
    exact h
  rw [if_pos hf]
  obtain ⟨rfl, -⟩ := hr hf
  unfold AggDev.irq
  cases hc : s.coal with
  | null => exact h
  | freed => exact h
  | live l =>
      obtain ⟨⟨e, rfl, hring⟩, hrest⟩ := h.live l hc
      simp only
      refine ⟨h.qbase, h.qmax, fun l hl => ?_, fun c hcall => ?_, fun r hr' => by cases hr'⟩
      · cases hl
        exact ⟨⟨e, rfl, hring⟩, hrest⟩
      · obtain ⟨hcounter, hdescq⟩ := irq_call (e := e) hf.2.1
          (by show [e][s.lib.conf.dvecStartIdx - s.lib.conf.dvecStartIdx]? = _
              rw [Nat.sub_self, List.getElem?_cons_zero]) hcall
        exact ⟨e, rfl, rfl, hcounter, hdescq⟩

/-- **The device writes** what it likes. -/
theorem AggInv.write {s : AggDev} (h : AggInv s) (slot : ℕ) (r : QdmaIntrRing) :
    AggInv (s.step (.write slot r)) := by
  show AggInv (s.write slot r)
  unfold AggDev.write
  cases hc : s.coal with
  | null => exact h
  | freed => exact h
  | live l =>
      obtain ⟨⟨e, rfl, hring⟩, hrest⟩ := h.live l hc
      refine ⟨h.qbase, h.qmax, ?_, ?_, h.last⟩
      · rintro l hl
        cases hl
        refine ⟨⟨_, rfl, hring.num, hring.cidx, fun i => ?_⟩, hrest⟩
        show (Function.update e.intrRingBase slot { r with qid := r.qid % 2 ^ 11 } i).qid < 2 ^ 11
        by_cases hi : i = slot
        · rw [hi, Function.update_self]
          exact Nat.mod_lt _ (by decide)
        · rw [Function.update_of_ne hi]
          exact hring.qid i
      · intro c hcall
        obtain ⟨e', hcoal, hvidx, hcounter, hdescq⟩ := h.call c hcall
        rw [hc] at hcoal
        cases hcoal
        exact ⟨_, rfl, hvidx, hcounter, hdescq⟩

/-- Without a ring there is no call. -/
theorem AggInv.call_none {s : AggDev} (h : AggInv s) (hdead : ∀ l, s.coal ≠ .live l) :
    s.call = none := by
  cases hcall : s.call with
  | none => rfl
  | some c =>
      obtain ⟨e, hcoal, -⟩ := h.call c hcall
      exact absurd hcoal (hdead _)

/-- No ring is there, and so no call. -/
theorem AggInv.dead {s : AggDev} (hqbase : s.lib.conf.qbase < 2 ^ 16)
    (hqmax : s.lib.dev.qmax < 2 ^ 16) (hdead : ∀ l, s.coal ≠ .live l) (hcall : s.call = none)
    (hlast : ∀ r ∈ s.last, r.qid < 2 ^ 11) : AggInv s := by
  refine ⟨hqbase, hqmax, fun l hl => absurd hl (hdead l), fun c hc => ?_, hlast⟩
  rw [hcall] at hc
  cases hc

/-- The library has changed nothing the handler depends on. -/
theorem AggInv.lib {s : AggDev} (h : AggInv s) {lib : IdDev}
    (hqbase : lib.conf.qbase = s.lib.conf.qbase)
    (hdvec : lib.conf.dvecStartIdx = s.lib.conf.dvecStartIdx)
    (hinit : lib.initQrange = s.lib.initQrange) (hfixed : lib.dev.fixed = s.lib.dev.fixed) :
    AggInv { s with lib := lib } := by
  have hgone : lib.dev.gone = s.lib.dev.gone := congrArg (·.2.1) hfixed
  have hqmax : lib.dev.qmax = s.lib.dev.qmax := congrArg (·.2.2.1) hfixed
  have hcoal : lib.dev.intrCoalEn = s.lib.dev.intrCoalEn := congrArg (·.2.2.2.2.2) hfixed
  refine ⟨?_, ?_, fun l hl => ?_, fun c hc => ?_, h.last⟩
  · show lib.conf.qbase < _
    rw [hqbase]
    exact h.qbase
  · show lib.dev.qmax < _
    rw [hqmax]
    exact h.qmax
  · obtain ⟨he, hrest⟩ := h.live l hl
    refine ⟨he, ?_⟩
    show lib.dev.intrCoalEn = true ∧ lib.initQrange = true ∧ lib.dev.gone = false
    rw [hcoal, hinit, hgone]
    exact hrest
  · obtain ⟨e, hl, hvidx, hcounter, hdescq⟩ := h.call c hc
    refine ⟨e, hl, hvidx.trans hdvec.symm, hcounter, ?_⟩
    show c.descq = s.last.map (fun r => qdmaDeviceGetDescqByHwQid lib.conf r.qid r.intrType)
    unfold qdmaDeviceGetDescqByHwQid
    rw [hqbase]
    exact hdescq

/-- What `device_set_qrange` leaves. -/
theorem setQrange_cases (s : IdDev) (env : PrepEnv) :
    (s.deviceSetQrange env).1.dev = s.dev ∧
      ((s.deviceSetQrange env).1.conf = s.conf ∨
        (s.deviceSetQrange env).1.conf = { s.conf with qbase := u16 env.fmapQbase }) ∧
      (0 ≤ (s.deviceSetQrange env).2 → (s.deviceSetQrange env).1.initQrange = true) := by
  unfold IdDev.deviceSetQrange
  by_cases hvf : s.dev.vf = true
  · rw [if_pos hvf]
    by_cases hrv : env.fmapRv < 0
    · rw [if_pos hrv]
      exact ⟨rfl, .inl rfl, fun h => absurd hrv (not_lt.mpr h)⟩
    · rw [if_neg hrv]
      exact ⟨rfl, .inr rfl, fun _ => rfl⟩
  · rw [if_neg hvf]
    exact ⟨rfl, .inl rfl, fun _ => rfl⟩

/-- **The resources are prepared**: the list is a new one, or what it was. -/
theorem AggInv.prep {s : AggDev} (h : AggInv s) (hgone : s.lib.dev.gone = false) (env : PrepEnv) :
    AggInv { s with lib := (s.lib.prepQResource env).1, coal := s.lib.prepCoal env s.coal } := by
  unfold IdDev.prepQResource IdDev.prepCoal
  by_cases hinit : s.lib.initQrange = true
  · rw [if_pos hinit, if_pos hinit]
    exact h
  rw [if_neg hinit, if_neg hinit]
  -- with `init_qrange` clear no list is live, so that no call is under way
  have hdead : ∀ l, s.coal ≠ .live l := fun l hl => hinit (h.live l hl).2.2.1
  have hnone := h.call_none hdead
  obtain ⟨hdev, hconf, hset⟩ := setQrange_cases s.lib env
  generalize s.lib.deviceSetQrange env = r at hdev hconf hset
  obtain ⟨lib, rv⟩ := r
  simp only at hdev hconf hset ⊢
  have hqbase : lib.conf.qbase < 2 ^ 16 := by
    rcases hconf with hc | hc
    · rw [hc]
      exact h.qbase
    · rw [hc]
      exact Nat.mod_lt _ (by decide)
  have hqmax : lib.dev.qmax < 2 ^ 16 := hdev ▸ h.qmax
  by_cases hrv : rv < 0
  · rw [if_pos hrv, if_pos hrv]
    exact .dead hqbase hqmax hdead hnone h.last
  rw [if_neg hrv, if_neg hrv]
  cases hring : intrRingSetup lib.conf env.allocOk with
  | error e => exact .dead hqbase hqmax hdead hnone h.last
  | ok p =>
      obtain ⟨b, l⟩ := p
      cases b with
      -- without aggregation there is no list; with it, the ring just set up
      | false => exact .dead hqbase hqmax (fun _ hl => by cases hl) hnone h.last
      | true =>
          obtain ⟨rfl, -⟩ := intrRingSetup_start hring Nat.one_pos
          refine ⟨hqbase, hqmax, ?_, ?_, h.last⟩
          · rintro l hl
            cases hl
            refine ⟨⟨_, rfl, coalEntry_ok _ 0⟩, rfl, hset (not_lt.mp hrv), ?_⟩
            show lib.dev.gone = false
            rw [hdev]
            exact hgone
          · rintro c hc
            change s.call = some c at hc
            rw [hnone] at hc
            cases hc

/-- A queue that is added has its place on a device that is there. -/
theorem addPlace_gone {x : QdmaDev} {c : AddCall} {p : QueueConf × ℕ} (h : x.addPlace c = some p) :
    x.gone = false := by
  obtain ⟨qconf, i⟩ := p
  obtain ⟨-, -, -, hgone, -⟩ := (addPlace_some h).1
  exact hgone

/-- **A queue is added.** -/
theorem AggInv.add {s : AggDev} (h : AggInv s) (c : AddCall) (env : PrepEnv) :
    AggInv (s.step (.lib (.add c env))) := by
  show AggInv { s with lib := (s.lib.queueAdd c env).1, coal := s.coalAfter (.add c env) }
  unfold AggDev.coalAfter IdDev.queueAdd
  simp only
  cases hp : s.lib.dev.addPlace c with
  | none => exact h.lib rfl rfl rfl (queueAdd_fixed s.lib.dev c)
  | some p =>
      have hprep := h.prep (addPlace_gone hp) env
      exact hprep.lib rfl rfl rfl (queueAdd_fixed (s.lib.prepQResource env).1.dev _)

/-- **The device is cleaned up**: its rings are freed. -/
theorem AggInv.cleanup {s : AggDev} (h : AggInv s) (ctxCleared : ℕ → Bool) :
    AggInv (s.step (.lib (.cleanup ctxCleared))) := by
  show AggInv (if s.call = none then _ else _)
  by_cases hcall : s.call = none
  swap
  · rw [if_neg hcall]
    exact h
  rw [if_pos hcall]
  have hfixed := deviceCleanup_fixed s.lib.dev ctxCleared
  have hqmax : (s.lib.dev.deviceCleanup ctxCleared).qmax < 2 ^ 16 := by
    rw [show (s.lib.dev.deviceCleanup ctxCleared).qmax = s.lib.dev.qmax from
      congrArg (·.2.2.1) hfixed]
    exact h.qmax
  refine .dead h.qbase hqmax (fun l hl => ?_) hcall h.last
  change s.coalAfter (.cleanup ctxCleared) = _ at hl
  unfold AggDev.coalAfter at hl
  by_cases hg : s.lib.dev.gone = true
  · rw [if_pos hg] at hl
    rw [(h.live l hl).2.2.2] at hg
    cases hg
  rw [if_neg hg] at hl
  by_cases hen : s.lib.dev.intrCoalEn = true
  · rw [if_pos hen] at hl
    cases hc : s.coal <;> rw [hc] at hl <;> cases hl
  · rw [if_neg hen] at hl
    exact hen (h.live l hl).2.1

/-- **A call of the library** keeps the invariant. -/
theorem AggInv.libStep {s : AggDev} (h : AggInv s) (e : IdStep) : AggInv (s.step (.lib e)) := by
  cases e with
  | add c env => exact h.add c env
  | config qid qconf => exact h.lib rfl rfl rfl (queueConfig_fixed _ qid qconf)
  | reconfig id qconf => exact h.lib rfl rfl rfl (queueReconfig_fixed _ id qconf)
  | start id env => exact h.lib rfl rfl rfl (queueStart_fixed _ id env)
  | stop id ctxCleared => exact h.lib rfl rfl rfl (queueStop_fixed _ id ctxCleared)
  | remove id ctxCleared => exact h.lib rfl rfl rfl (queueRemove_fixed _ id ctxCleared)
  | cleanup ctxCleared => exact h.cleanup ctxCleared

/-- **`qdma_device_init`** comes after the end of the device: there is no ring. -/
theorem AggInv.init {s : AggDev} (h : AggInv s) (numVecs qsetsMax : ℕ) :
    AggInv (s.step (.init numVecs qsetsMax)) := by
  show AggInv (s.deviceInit numVecs qsetsMax)
  unfold AggDev.deviceInit
  by_cases hgone : s.lib.dev.gone = true
  swap
  · rw [if_neg hgone]
    exact h
  rw [if_pos hgone]
  have hdead : ∀ l, s.coal ≠ .live l := by
    intro l hl
    rw [(h.live l hl).2.2.2] at hgone
    cases hgone
  refine .dead ?_ (Nat.mod_lt _ (by decide)) hdead (h.call_none hdead) h.last
  show (if s.lib.dev.vf then 0 else u16 _) < 2 ^ 16
  split_ifs
  · decide
  · exact Nat.mod_lt _ (by decide)

/-- Another ring size is for rings to come. -/
theorem AggInv.setIntrRngsz {s : AggDev} (h : AggInv s) (v : ℕ) :
    AggInv (s.step (.setIntrRngsz v)) := by
  show AggInv (if s.lib.dev.gone = true then s else _)
  split_ifs
  · exact h
  · have hconf : (qdmaSetIntrRngsz s.lib.conf s.lib.initQrange v).2.qbase = s.lib.conf.qbase ∧
        (qdmaSetIntrRngsz s.lib.conf s.lib.initQrange v).2.dvecStartIdx
          = s.lib.conf.dvecStartIdx := by
      unfold qdmaSetIntrRngsz
      split_ifs <;> exact ⟨rfl, rfl⟩
    exact h.lib hconf.1 hconf.2 rfl rfl

/-- **Every step** that is as the handler relies on keeps the invariant. -/
theorem AggInv.step {s : AggDev} (h : AggInv s) {e : AggEvent} (hr : s.Reliable e) :
    AggInv (s.step e) := by
  cases e with
  | init numVecs qsetsMax => exact h.init numVecs qsetsMax
  | setIntrRngsz v => exact h.setIntrRngsz v
  | lib e => exact h.libStep e
  | write slot r => exact h.write slot r
  | irq v => exact h.irq hr
  | round => exact h.round hr

/-! ## Runs -/

/-- The device after some events. -/
def AggDev.after (s : AggDev) (evs : List AggEvent) : AggDev := evs.foldl AggDev.step s

/-- A device before `qdma_device_init`. -/
def AggDev.closed (x : QdmaDev) (conf : IntrConf) (funcId : Fin 256) : AggDev where
  funcId := funcId
  lib :=
    { dev := { x with gone := true, qmax := 0, intrCoalEn := false }
      conf := { conf with qbase := 0 }
      qidxHw := fun _ => 0 }

/-- **When the handler is safe.**  In every run of a device, whatever it writes to its ring and
whichever data vectors fire when, all accesses of `data_intr_aggregate` are in range, and work is
scheduled for queues that have been added only, exactly if all steps are as the handler relies
on. -/
theorem aggregate_safe_iff (x : QdmaDev) (conf : IntrConf) (funcId : Fin 256)
    (evs : List AggEvent) :
    (∀ pre e post, evs = pre ++ e :: post →
        ((AggDev.closed x conf funcId).after pre).Safe e) ↔
      ∀ pre e post, evs = pre ++ e :: post →
        ((AggDev.closed x conf funcId).after pre).Reliable e := by
  have h0 : AggInv (AggDev.closed x conf funcId) := by
    refine .dead ?_ ?_ (fun _ hl => by cases hl) rfl (fun _ hr => by cases hr)
    · show 0 < 2 ^ 16
      decide
    · show 0 < 2 ^ 16
      decide
  exact calls_iff (P := fun _ => True) h0 (fun s e h _ hr => h.step hr)
    (fun s e h _ => safe_iff h e) (fun _ _ => trivial)

/-- PF 0 before it is initialized. -/
def closedPf : AggDev :=
  AggDev.closed
    { qmax := 0, numVecs := 0, dvecStartIdx := 2, intrCoalEn := false, threadCnt := 1
      descq := fun _ => {}
      wrk := fun _ => {}
      wb := fun _ => {}
      intrList := fun _ => []
      intrListCnt := fun _ => 0 }
    oneVecConf 0

/-- It has eight vectors and 32 pairs of queues, of which one C2H queue is added. -/
def aggregating : List AggEvent := [.init 8 32, .lib (.add { qconf := some { c2h := true } } {})]

/-- **What the handler does not check.**  An entry that names queue 40 of 32 makes it schedule
work past the end of the array; the second data vector makes it take an entry behind the only one
there is; and after an end and a new start of the device it takes a list that is freed. -/
theorem queue_id_out_of_range :
    ¬ (closedPf.after (aggregating ++
        [.write 0 { qid := 40, intrType := true, coalColor := true }, .irq 2])).Safe .round ∧
      ¬ (closedPf.after aggregating).Safe (.irq 3) ∧
      ¬ (closedPf.after (aggregating ++ [.lib (.cleanup fun _ => true), .init 8 32])).Safe
        (.irq 2) := by
  refine ⟨fun h => ?_, fun h => ?_, fun h => ?_⟩
  · have hwork := h (.work (true, 40)) (by decide +kernel)
    exact absurd hwork.1.2 (by decide +kernel)
  · obtain ⟨l, hl, hlt⟩ := h (.coal 1) (by decide +kernel)
    have hlive : (closedPf.after aggregating).coal
        = .live [(closedPf.after aggregating).lib.conf.coalEntry 0] := rfl
    rw [hlive] at hl
    cases hl
    exact absurd hlt (by decide)
  · obtain ⟨l, hl, -⟩ := h (.coal 0) (by decide +kernel)
    have hfreed : (closedPf.after
        (aggregating ++ [.lib (.cleanup fun _ => true), .init 8 32])).coal = .freed := rfl
    rw [hfreed] at hl
    cases hl

end Qdma
