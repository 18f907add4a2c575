/-
# Interrupt aggregation rings

The rings of the data vectors: `intr_ring_setup`, and `data_intr_aggregate`, which goes
through the entries of a vector's ring as long as their colour is that of the current lap.
The device posts entries while it does, so a step here is one round of its loop.

`intr_aggregation` says for which ring sizes nothing is lost or repeated: the software keeps
the number of entries in sixteen bits.
-/
import Qdma.Fmap
import Qdma.Servicing
import Qdma.Exec

namespace Qdma

open RingIndex Exec

/-! ## The rings -/

/-- `QDMA_DATA_VEC_PER_PF_MAX`. -/
def qdmaDataVecPerPfMax : ℕ := 1

/-- The fields of `struct qdma_intr_ring` the driver reads. -/
structure QdmaIntrRing where
  errorInt : Bool := false
  intrType : Bool := false
  qid : ℕ := 0
  coalColor : Bool := false
  deriving DecidableEq

/-- `struct intr_coal_conf`, with the memory `intr_ring_base` points to. -/
structure IntrCoalConf where
  vecId : ℕ
  intrRngNumEntries : ℕ
  intrRingBase : ℕ → QdmaIntrRing
  color : Bool
  cidx : ℕ

instance neZero_u8 : NeZero 256 := ⟨by decide⟩

/-- What setting up and going through the rings reads of a device.  `intrRngsz` is a `u8`. -/
structure IntrConf where
  pollMode : Bool := false
  intrAgg : Bool := true
  numVecs : ℕ
  qsetsMax : ℕ
  intrRngsz : Fin 256
  dvecStartIdx : ℕ
  msixEntry : ℕ → ℕ
  qbase : ℕ
  qmax : ℕ

/-- The entries of the ring `intr_ring_alloc` allocates. -/
def IntrConf.numEntries (x : IntrConf) : ℕ := (x.intrRngsz.val + 1) * 512

/-- The entry of `intr_coal_list` for the `i`-th data vector.  Its ring has been cleared, and
`intr_rng_num_entries` is a `u16`. -/
def IntrConf.coalEntry (x : IntrConf) (i : ℕ) : IntrCoalConf :=
  { vecId := x.msixEntry (i + x.dvecStartIdx)
    intrRngNumEntries := u16 x.numEntries
    intrRingBase := fun _ => {}
    color := true
    cidx := 0 }

/-- `intr_ring_setup`, `allocOk` being the answers of the allocator, that for the list first:
`intr_coal_en` and `intr_coal_list`, or an error. -/
def intrRingSetup (x : IntrConf) (allocOk : ℕ → Bool) : Except ℤ (Bool × List IntrCoalConf) :=
  if x.pollMode || !x.intrAgg then .ok (false, [])
  else if x.numVecs ≠ 0 ∧ x.numVecs < x.qsetsMax then
    if (List.range (qdmaDataVecPerPfMax + 1)).all allocOk then
      .ok (true, (List.range qdmaDataVecPerPfMax).map x.coalEntry)
    else .error enomem
  else .ok (false, [])

/-! ## Going through a ring -/

/-- A queue: one of `c2h_descq` or `h2c_descq`, by its index. -/
abbrev QRef := Bool × ℕ

/-- `qdma_device_get_descq_by_hw_qid`, which never returns NULL. -/
def qdmaDeviceGetDescqByHwQid (x : IntrConf) (qidxHw : ℕ) (c2h : Bool) : QRef :=
  (c2h, (qidxHw + (2 ^ 64 - x.qbase)) % 2 ^ 64)

/-- What an entry makes the driver do: `err_stat_handler`, or `schedule_work` for a queue. -/
inductive IntrAct where
  | errStat
  | schedule (descq : QRef)
  deriving DecidableEq

/-- The dispatch of an entry. -/
def QdmaIntrRing.act (x : IntrConf) (e : QdmaIntrRing) : IntrAct :=
  if e.errorInt then .errStat else .schedule (qdmaDeviceGetDescqByHwQid x e.qid e.intrType)

/-- The value `intr_cidx_update` writes to the CIDX register of a queue. -/
def intrCidxUpdate (descq : QRef) (swCidx : ℕ) : ℕ :=
  swCidx ||| (if descq.1 then 1 <<< 16 else 0)

/-- A call of `intr_cidx_update`, and how many entries had been dispatched by then. -/
structure IntrBell where
  descq : QRef
  swCidx : ℕ
  dispatched : ℕ
  deriving DecidableEq

/-- A call of `data_intr_aggregate` in its loop; with the entries posted and not dispatched
when it started, those posted since, and the rounds it has made. -/
structure IntrCall where
  counter : ℕ
  descq : Option QRef := none
  start : ℕ
  during : ℕ := 0
  rounds : ℕ := 0

/-- The data vector `vidx` of a device, with its ring: the entries posted, the dispatches and
the doorbells, and the call of the handler that holds the device lock. -/
structure IntrSys where
  conf : IntrConf
  vidx : ℕ
  intrCoalList : List IntrCoalConf
  call : Option IntrCall := none
  posted : List QdmaIntrRing := []
  log : List IntrAct := []
  bells : List IntrBell := []

/-- `xdev->intr_coal_list + vidx - xdev->dvec_start_idx`. -/
def IntrSys.coalIdx (s : IntrSys) : ℕ := s.vidx - s.conf.dvecStartIdx

/-- The list with another entry for the vector. -/
def IntrSys.setCoal (s : IntrSys) (f : IntrCoalConf → IntrCoalConf) : IntrSys :=
  { s with intrCoalList := s.intrCoalList.modify s.coalIdx f }

/-- The driver's index moves past an entry.  The colour toggled is that of the first entry of
`intr_coal_list`. -/
def IntrSys.advance (s : IntrSys) (e : IntrCoalConf) (c : IntrCall) : IntrSys × IntrCall :=
  let cidx := u32 (e.cidx + 1)
  if cidx = e.intrRngNumEntries then
    ({ s with intrCoalList := s.intrCoalList.modify 0 (fun e => { e with color := !e.color }) }
        |>.setCoal (fun e => { e with cidx := 0 }), { c with counter := 0 })
  else (s.setCoal (fun e => { e with cidx := cidx }), { c with counter := u32 (c.counter + 1) })

/-- A round of the loop of `data_intr_aggregate`, or its end. -/
def IntrSys.round (s : IntrSys) (e : IntrCoalConf) (c : IntrCall) : IntrSys :=
  let ring := e.intrRingBase c.counter
  if ring.coalColor = e.color then
    let descq := qdmaDeviceGetDescqByHwQid s.conf ring.qid ring.intrType
    let (s, c) := { s with log := s.log ++ [ring.act s.conf] }.advance e c
    { s with call := some { c with descq := some descq, rounds := c.rounds + 1 } }
  else
    match c.descq with
    | some descq =>
        { s with call := none, bells := s.bells ++ [⟨descq, e.cidx, s.log.length⟩] }
    | none => { s with call := none }

/-- The steps: the device posts an entry, the handler of the vector is entered, and it makes
a round. -/
inductive IntrLabel where
  | post (e : QdmaIntrRing)
  | irq
  | round

/-- An entry is posted in the slot and the colour of its turn. -/
def IntrSys.post (s : IntrSys) (e : QdmaIntrRing) : IntrSys :=
  let n := s.conf.numEntries
  let e := { e with coalColor := lap n s.posted.length }
  { s.setCoal (fun c => { c with
      intrRingBase := Function.update c.intrRingBase (s.posted.length % n) e }) with
    posted := s.posted ++ [e]
    call := s.call.map (fun c => { c with during := c.during + 1 }) }

/-- One step. -/
def IntrSys.step (s : IntrSys) : IntrLabel → IntrSys
  | .post e => s.post e
  | .irq =>
      match s.intrCoalList[s.coalIdx]? with
      | some e =>
          if s.conf.msixEntry s.vidx ≠ e.vecId then s
          else { s with call := some { counter := e.cidx, start := s.posted.length - s.log.length } }
      | none => s
  | .round =>
      match s.intrCoalList[s.coalIdx]?, s.call with
      | some e, some c => s.round e c
      | _, _ => s

/-- The device posts entries that name queues of the function while the ring holds fewer than
it has room for; calls of the handler hold the device lock. -/
def IntrLegal (s : IntrSys) : IntrLabel → Prop
  | .post e => s.posted.length - s.log.length < s.conf.numEntries ∧
      s.conf.qbase ≤ e.qid ∧ e.qid < s.conf.qbase + s.conf.qmax ∧ e.qid < 2 ^ 11
  | .irq => s.call = none
  | .round => s.call ≠ none

/-! ## The law -/

/-- The dispatch an entry asks for. -/
def QdmaIntrRing.asks (x : IntrConf) (e : QdmaIntrRing) : IntrAct :=
  if e.errorInt then .errStat else .schedule (e.intrType, e.qid - x.qbase)

/-- **The law of aggregation.**  What has been dispatched are the first entries posted, in
order; a call makes no more rounds than there were and came entries to dispatch, and ends when
there is none; the driver's index and colour are those of the next entry, and so was every
index passed to `intr_cidx_update`, of which the device sees all bits. -/
structure IntrServed (s : IntrSys) : Prop where
  order : s.log = (s.posted.take s.log.length).map (QdmaIntrRing.asks s.conf)
  bound : ∀ c ∈ s.call, c.rounds ≤ c.start + c.during
  enters : s.call = none → (s.step .irq).call ≠ none
  ends : s.call ≠ none → ((s.step .round).call = none ↔ s.log.length = s.posted.length)
  index : ∀ e ∈ s.intrCoalList[s.coalIdx]?, e.cidx < s.conf.numEntries ∧
    e.cidx = s.log.length % s.conf.numEntries ∧ e.color = lap s.conf.numEntries s.log.length
  bells : ∀ b ∈ s.bells, b.swCidx = b.dispatched % s.conf.numEntries ∧
    intrCidxUpdate b.descq b.swCidx % 2 ^ 16 = b.swCidx

/-- **What makes it so**: the ring holds the last entries posted, and what is left of the lap
before has the other colour. -/
structure IntrInv (s : IntrSys) (e : IntrCoalConf) : Prop where
  list : s.intrCoalList = [e]
  idx : s.coalIdx = 0
  vec : s.conf.msixEntry s.vidx = e.vecId
  num : e.intrRngNumEntries = s.conf.numEntries
  small : s.conf.numEntries < 2 ^ 16
  le : s.log.length ≤ s.posted.length
  log : s.log = (s.posted.take s.log.length).map (QdmaIntrRing.asks s.conf)
  cidx : e.cidx = s.log.length % s.conf.numEntries
  color : e.color = lap s.conf.numEntries s.log.length
  entry : ∀ k (h : k < s.posted.length), s.posted.length ≤ k + s.conf.numEntries →
    e.intrRingBase (k % s.conf.numEntries) = s.posted[k]
  colored : ∀ k (h : k < s.posted.length), s.posted[k].coalColor = lap s.conf.numEntries k
  named : ∀ e ∈ s.posted, s.conf.qbase ≤ e.qid ∧ e.qid < 2 ^ 11
  fresh : ∀ i < s.conf.numEntries, s.posted.length ≤ i → (e.intrRingBase i).coalColor = false
  room : s.posted.length ≤ s.log.length + s.conf.numEntries
  counter : ∀ c ∈ s.call, c.counter = e.cidx
  rounds : ∀ c ∈ s.call, c.start + c.during + s.log.length = c.rounds + s.posted.length
  bells : ∀ b ∈ s.bells, b.swCidx = b.dispatched % s.conf.numEntries

theorem IntrConf.numEntries_pos (x : IntrConf) : 0 < x.numEntries := by
  unfold IntrConf.numEntries
  omega

/-- A lap further the colour is the other one. -/
theorem lap_add {n : ℕ} (hn : 0 < n) (k : ℕ) : lap n (k + n) = !lap n k := by
  unfold lap
  rw [Nat.add_div_right k hn, ← decide_not]
  exact decide_eq_decide.mpr (by omega)

/-- The first lap is of colour 1. -/
theorem lap_of_lt {n k : ℕ} (hk : k < n) : lap n k = true := by
  unfold lap
  rw [Nat.div_eq_of_lt hk]
  rfl

/-- **The colour tells**: the next slot has the driver's colour if an entry waits there. -/
theorem IntrInv.next {s : IntrSys} {e : IntrCoalConf} (h : IntrInv s e) :
    (e.intrRingBase e.cidx).coalColor = e.color ↔ s.log.length < s.posted.length := by
  have hpos := s.conf.numEntries_pos
  rw [h.cidx, h.color]
  constructor
  · intro heq
    by_contra hle
    have hlen : s.posted.length = s.log.length := le_antisymm (not_lt.mp hle) h.le
    rcases Nat.lt_or_ge s.log.length s.conf.numEntries with hlt | hge
    · -- the first lap: the slot is as `memset` left it
      rw [Nat.mod_eq_of_lt hlt, h.fresh _ hlt hlen.le, lap_of_lt hlt] at heq
      cases heq
    · -- the entry of the lap before is still there
      obtain ⟨k, hk⟩ := Nat.exists_eq_add_of_le' hge
      have hlt : k < s.posted.length := by omega
      rw [hk, Nat.add_mod_right, h.entry k hlt (by omega), h.colored k hlt, lap_add hpos] at heq
      cases hl : lap s.conf.numEntries k <;> rw [hl] at heq <;> cases heq
  · intro hlt
    have hroom := h.room
    rw [h.entry _ hlt hroom, h.colored _ hlt]

/-- The driver finds the queue an entry names. -/
theorem QdmaIntrRing.act_eq {x : IntrConf} {e : QdmaIntrRing} (h : x.qbase ≤ e.qid)
    (hq : e.qid < 2 ^ 11) : e.act x = e.asks x := by
  have hidx : (e.qid + (2 ^ 64 - x.qbase)) % 2 ^ 64 = e.qid - x.qbase := by omega
  unfold QdmaIntrRing.act QdmaIntrRing.asks qdmaDeviceGetDescqByHwQid
  rw [hidx]

/-! ## The steps -/

/-- **A posting** is in the ring, and the entry it replaces had been dispatched. -/
theorem IntrInv.post {s : IntrSys} {e : IntrCoalConf} (h : IntrInv s e) (x : QdmaIntrRing)
    (hl : IntrLegal s (.post x)) : ∃ e', IntrInv (s.step (.post x)) e' := by
  obtain ⟨hroom, hbase, -, hqid⟩ := hl
  have hpos := s.conf.numEntries_pos
  have hle := h.le
  set n := s.conf.numEntries with hn
  set y : QdmaIntrRing := { x with coalColor := lap n s.posted.length } with hy
  have hlen : (s.step (.post x)).posted.length = s.posted.length + 1 := by
    show (s.posted ++ [y]).length = _
    rw [List.length_append, List.length_singleton]
  have hget : ∀ k (hk : k < (s.step (.post x)).posted.length), k < s.posted.length →
      (s.step (.post x)).posted[k] = s.posted[k]? := by
    intro k hk hlt
    rw [List.getElem?_eq_getElem hlt]
    exact congrArg some (List.getElem_append_left hlt)
  have hlast : ∀ hk : s.posted.length < (s.step (.post x)).posted.length,
      (s.step (.post x)).posted[s.posted.length] = y := fun hk => List.getElem_concat_length rfl _
  refine ⟨{ e with intrRingBase := Function.update e.intrRingBase (s.posted.length % n) y },
    ⟨?_, h.idx, h.vec, h.num, h.small, ?_, ?_, h.cidx, h.color, ?_, ?_, ?_, ?_, ?_, ?_, ?_,
      h.bells⟩⟩
  · show s.intrCoalList.modify s.coalIdx _ = _
    rw [h.list, h.idx]
    rfl
  · rw [hlen]
    exact Nat.le_succ_of_le hle
  · show s.log = ((s.posted ++ [y]).take s.log.length).map _
    rw [List.take_append_of_le_length hle]
    exact h.log
  · intro k hk (hkn : _ ≤ k + n)
    rw [hlen] at hk hkn
    show Function.update e.intrRingBase (s.posted.length % n) y (k % n) = _
    -- an older entry less than a ring away is not overwritten
    rcases Nat.lt_succ_iff_lt_or_eq.mp hk with hlt | rfl
    · have hne : k % n ≠ s.posted.length % n := mod_ne_mod hlt hkn
      rw [Function.update_of_ne hne, h.entry k hlt (by omega)]
      exact Option.some.inj ((List.getElem?_eq_getElem hlt).symm.trans (hget k _ hlt).symm)
    · rw [Function.update_self, hlast]
  · intro k hk
    rw [hlen] at hk
    rcases Nat.lt_succ_iff_lt_or_eq.mp hk with hlt | rfl
    · rw [Option.some.inj ((hget k (hlen ▸ hk) hlt).trans (List.getElem?_eq_getElem hlt))]
      exact h.colored k hlt
    · rw [hlast]
      rfl
  · intro z hz
    rcases List.mem_append.mp hz with hz | hz
    · exact h.named z hz
    · rw [List.mem_singleton.mp hz]
      exact ⟨hbase, hqid⟩
  · intro i (hi : i < n) hfresh
    rw [hlen] at hfresh
    have hne : i ≠ s.posted.length % n := by
      rw [Nat.mod_eq_of_lt (by omega)]
      omega
    show (Function.update e.intrRingBase (s.posted.length % n) y i).coalColor = false
    rw [Function.update_of_ne hne]
    exact h.fresh i hi (by omega)
  · rw [hlen]
    show _ ≤ s.log.length + n
    omega
  · intro c hc
    obtain ⟨c0, hc0, rfl⟩ := Option.map_eq_some_iff.mp hc
    exact h.counter c0 hc0
  · intro c hc
    obtain ⟨c0, hc0, rfl⟩ := Option.map_eq_some_iff.mp hc
    have hr := h.rounds c0 hc0
    rw [hlen]
    show c0.start + (c0.during + 1) + s.log.length = c0.rounds + (s.posted.length + 1)
    omega

/-- The call that starts when the handler finds its ring. -/
theorem IntrSys.step_irq {s : IntrSys} {e : IntrCoalConf} (hlist : s.intrCoalList = [e])
    (hidx : s.coalIdx = 0) (hvec : s.conf.msixEntry s.vidx = e.vecId) :
    s.step .irq = { s with
      call := some { counter := e.cidx, start := s.posted.length - s.log.length } } := by
  simp only [IntrSys.step, hlist, hidx, List.getElem?_cons_zero, hvec, ne_eq,
    not_true_eq_false, if_false]

/-- **The handler is entered.** -/
theorem IntrInv.irq {s : IntrSys} {e : IntrCoalConf} (h : IntrInv s e) :
    s.step .irq
        = { s with call := some { counter := e.cidx, start := s.posted.length - s.log.length } } ∧
      IntrInv (s.step .irq) e := by
  have hstep := IntrSys.step_irq h.list h.idx h.vec
  refine ⟨hstep, ?_⟩
  rw [hstep]
  refine { h with counter := ?_, rounds := ?_ }
  · intro c hc
    cases hc
    rfl
  · intro c hc
    cases hc
    have := h.le
    show s.posted.length - s.log.length + 0 + s.log.length = 0 + s.posted.length
    omega

/-- The index and the colour move to the next entry. -/
theorem IntrSys.advance_spec {s : IntrSys} {e : IntrCoalConf} {c : IntrCall} {d : ℕ}
    (hlist : s.intrCoalList = [e]) (hidx : s.coalIdx = 0)
    (hnum : e.intrRngNumEntries < 2 ^ 16) (hpos : 0 < e.intrRngNumEntries)
    (hcidx : e.cidx = d % e.intrRngNumEntries) (hcolor : e.color = lap e.intrRngNumEntries d)
    (hcounter : c.counter = e.cidx) :
    ∃ e', s.advance e c = ({ s with intrCoalList := [e'] }, { c with counter := e'.cidx }) ∧
      e' = { e with cidx := (d + 1) % e.intrRngNumEntries
                    color := lap e.intrRngNumEntries (d + 1) } := by
  have hmod := Nat.mod_lt d hpos
  have hadv := adv_one hmod
  rw [adv_mod] at hadv
  have hlap := lap_succ (k := d) hpos
  have hnext : u32 (e.cidx + 1) = d % e.intrRngNumEntries + 1 := by
    rw [hcidx]
    exact u32_of_lt (by omega)
  have hidx' : s.vidx - s.conf.dvecStartIdx = 0 := hidx
  refine ⟨_, ?_, rfl⟩
  unfold IntrSys.advance
  rw [hcounter, hnext, hadv, hlap]
  by_cases hw : d % e.intrRngNumEntries + 1 = e.intrRngNumEntries
  · simp only [if_pos hw, IntrSys.setCoal, IntrSys.coalIdx, hlist, hidx', List.modify_zero_cons,
      hcolor]
  · simp only [if_neg hw, IntrSys.setCoal, IntrSys.coalIdx, hlist, hidx', List.modify_zero_cons,
      hcolor]

/-- **A round** with an entry to dispatch dispatches it. -/
theorem IntrInv.round {s : IntrSys} {e : IntrCoalConf} (h : IntrInv s e) {c : IntrCall}
    (hc : s.call = some c) (hlt : s.log.length < s.posted.length) :
    (s.step .round).call ≠ none ∧ ∃ e', IntrInv (s.step .round) e' := by
  have hpos := s.conf.numEntries_pos
  have hroom := h.room
  have hcounter := h.counter c hc
  have hring : e.intrRingBase c.counter = s.posted[s.log.length] := by
    rw [hcounter, h.cidx, h.entry _ hlt hroom]
  have hcolor : (e.intrRingBase c.counter).coalColor = e.color := by
    rw [hcounter]
    exact h.next.mpr hlt
  have hact : s.log ++ [s.posted[s.log.length].act s.conf]
      = (s.posted.take (s.log.length + 1)).map (QdmaIntrRing.asks s.conf) := by
    obtain ⟨hb, hq⟩ := h.named _ (List.getElem_mem hlt)
    rw [List.take_succ_eq_append_getElem hlt, List.map_append, ← h.log, QdmaIntrRing.act_eq hb hq]
    rfl
  have hlog : (s.log ++ [s.posted[s.log.length].act s.conf]).length = s.log.length + 1 := by
    rw [List.length_append, List.length_singleton]
  have hrounds := h.rounds c hc
  obtain ⟨e', hadv, he'⟩ := IntrSys.advance_spec (c := c) (d := s.log.length)
    (s := { s with log := s.log ++ [s.posted[s.log.length].act s.conf] }) h.list h.idx
    (h.num ▸ h.small) (h.num ▸ hpos) (h.num ▸ h.cidx) (h.num ▸ h.color) hcounter
  rw [h.num] at he'
  subst he'
  have hstep : s.step .round = s.round e c := by
    simp only [IntrSys.step, h.list, h.idx, List.getElem?_cons_zero, hc]
  rw [hstep]
  unfold IntrSys.round
  simp only [hcolor, if_true]
  rw [hring, hadv]
  refine ⟨Option.some_ne_none _, _, rfl, h.idx, h.vec, rfl, h.small, ?_, ?_, ?_, ?_, h.entry,
    h.colored, h.named, h.fresh, ?_, ?_, ?_, h.bells⟩
  · rw [hlog]
    exact hlt
  · rw [hlog]
    exact hact
  · rw [hlog]
  · rw [hlog]
  · rw [hlog]
    show s.posted.length ≤ s.log.length + 1 + s.conf.numEntries
    omega
  · intro c' hc'
    cases hc'
    rfl
  · intro c' hc'
    cases hc'
    rw [hlog]
    show c.start + c.during + (s.log.length + 1) = c.rounds + 1 + s.posted.length
    omega

/-- **A round** without one ends the call, with the doorbell. -/
theorem IntrInv.roundEnd {s : IntrSys} {e : IntrCoalConf} (h : IntrInv s e) {c : IntrCall}
    (hc : s.call = some c) (hge : ¬ s.log.length < s.posted.length) :
    (s.step .round).call = none ∧ IntrInv (s.step .round) e := by
  have hcolor : ¬ (e.intrRingBase c.counter).coalColor = e.color := by
    rw [h.counter c hc]
    exact mt h.next.mp hge
  have hstep : s.step .round = s.round e c := by
    simp only [IntrSys.step, h.list, h.idx, List.getElem?_cons_zero, hc]
  have hdone : ∀ bells, (∀ b ∈ bells, b.swCidx = b.dispatched % s.conf.numEntries) →
      IntrInv { s with call := none, bells := bells } e := by
    intro bells hb
    exact { h with
      counter := fun _ hc => (by cases hc)
      rounds := fun _ hc => (by cases hc)
      bells := hb }
  rw [hstep]
  unfold IntrSys.round
  simp only [hcolor, if_false]
  cases c.descq with
  | none => exact ⟨rfl, hdone _ h.bells⟩
  | some descq =>
      refine ⟨rfl, hdone _ ?_⟩
      intro b hb
      rcases List.mem_append.mp hb with hb | hb
      · exact h.bells b hb
      · rw [List.mem_singleton.mp hb]
        exact h.cidx

/-- **Every step keeps the invariant.** -/
theorem intrInv_step {s : IntrSys} (h : ∃ e, IntrInv s e) (l : IntrLabel) (hl : IntrLegal s l) :
    ∃ e, IntrInv (s.step l) e := by
  obtain ⟨e, h⟩ := h
  cases l with
  | post x => exact h.post x hl
  | irq => exact ⟨e, h.irq.2⟩
  | round =>
      obtain ⟨c, hc⟩ := Option.ne_none_iff_exists'.mp hl
      by_cases hlt : s.log.length < s.posted.length
      · exact (h.round hc hlt).2
      · exact ⟨e, (h.roundEnd hc hlt).2⟩

/-- The device sees every bit of the index. -/
theorem intrCidxUpdate_mod (descq : QRef) {swCidx : ℕ} (h : swCidx < 2 ^ 16) :
    intrCidxUpdate descq swCidx % 2 ^ 16 = swCidx := by
  unfold intrCidxUpdate
  rw [Nat.or_mod_two_pow, Nat.mod_eq_of_lt h]
  cases descq.1
  · exact Nat.or_zero swCidx
  · exact Nat.or_zero swCidx

/-- The invariant gives the law. -/
theorem IntrInv.served {s : IntrSys} {e : IntrCoalConf} (h : IntrInv s e) : IntrServed s := by
  have hpos := s.conf.numEntries_pos
  have hsmall := h.small
  have hle := h.le
  constructor
  · exact h.log
  · intro c hc
    have := h.rounds c hc
    omega
  · intro _
    rw [h.irq.1]
    exact Option.some_ne_none _
  · intro hcall
    obtain ⟨c, hc⟩ := Option.ne_none_iff_exists'.mp hcall
    by_cases hlt : s.log.length < s.posted.length
    · exact ⟨fun hnone => absurd hnone (h.round hc hlt).1, fun heq => absurd heq hlt.ne⟩
    · exact ⟨fun _ => by omega, fun _ => (h.roundEnd hc hlt).1⟩
  · intro e' he'
    rw [h.list, h.idx, List.getElem?_cons_zero] at he'
    obtain rfl := Option.some.inj he'
    refine ⟨?_, h.cidx, h.color⟩
    rw [h.cidx]
    exact Nat.mod_lt _ hpos
  · intro b hb
    refine ⟨h.bells b hb, intrCidxUpdate_mod _ ?_⟩
    rw [h.bells b hb]
    exact (Nat.mod_lt _ hpos).trans hsmall

/-! ## The ring sizes -/

/-- The `i`-th data vector after `intr_ring_setup`. -/
def IntrSys.start (x : IntrConf) (i : ℕ) (l : List IntrCoalConf) : IntrSys :=
  { conf := x, vidx := i + x.dvecStartIdx, intrCoalList := l }

/-- `intr_ring_setup` fails only without memory. -/
theorem intrRingSetup_error {x : IntrConf} {allocOk : ℕ → Bool} {rv : ℤ}
    (h : intrRingSetup x allocOk = .error rv) : rv = enomem := by
  unfold intrRingSetup at h
  split_ifs at h
  exact (Except.error.inj h).symm

/-- What `intr_ring_setup` leaves for a data vector. -/
theorem intrRingSetup_start {x : IntrConf} {allocOk : ℕ → Bool} {l : List IntrCoalConf} {i : ℕ}
    (hset : intrRingSetup x allocOk = .ok (true, l)) (hi : i < qdmaDataVecPerPfMax) :
    l = [x.coalEntry 0] ∧ i = 0 := by
  refine ⟨?_, Nat.lt_one_iff.mp hi⟩
  unfold intrRingSetup at hset
  split_ifs at hset <;> cases hset
  rfl

/-- A ring of up to 65024 entries starts well. -/
theorem intrInv_start {x : IntrConf} (hsz : x.intrRngsz.val ≤ 126) :
    IntrInv (IntrSys.start x 0 [x.coalEntry 0]) (x.coalEntry 0) := by
  have hpos := x.numEntries_pos
  have hsmall : x.numEntries < 2 ^ 16 := by
    unfold IntrConf.numEntries
    omega
  refine ⟨rfl, Nat.add_sub_cancel .., rfl, Nat.mod_eq_of_lt hsmall, hsmall, le_rfl, rfl, ?_, ?_, ?_,
    ?_, ?_, fun _ _ _ => rfl, Nat.zero_le _, ?_, ?_, ?_⟩
  · exact (Nat.zero_mod _).symm
  · exact (lap_of_lt hpos).symm
  · exact fun k hk => absurd hk (Nat.not_lt_zero k)
  · exact fun k hk => absurd hk (Nat.not_lt_zero k)
  · exact fun _ hx => absurd hx List.not_mem_nil
  · exact fun _ hc => (by cases hc)
  · exact fun _ hc => (by cases hc)
  · exact fun _ hb => absurd hb List.not_mem_nil

/-- The first lap: `k` entries posted and `j` dispatched, whatever the size. -/
structure FirstLap (x : IntrConf) (s : IntrSys) (e : IntrCoalConf) (k j : ℕ) : Prop where
  conf : s.conf = x
  list : s.intrCoalList = [e]
  idx : s.coalIdx = 0
  vec : x.msixEntry s.vidx = e.vecId
  num : e.intrRngNumEntries = u16 x.numEntries
  posted : s.posted.length = k
  log : s.log.length = j
  cidx : e.cidx = j
  color : e.color = true
  base : ∀ i < k, (e.intrRingBase i).coalColor = true
  counter : ∀ c ∈ s.call, c.counter = j

/-- A posting in the first lap. -/
theorem FirstLap.post {x : IntrConf} {s : IntrSys} {e : IntrCoalConf} {k : ℕ}
    (h : FirstLap x s e k 0) (hk : k < x.numEntries) (hcall : s.call = none) (y : QdmaIntrRing) :
    ∃ e', FirstLap x (s.step (.post y)) e' (k + 1) 0 ∧ (s.step (.post y)).call = none := by
  have hlap := lap_of_lt hk
  refine ⟨{ e with
      intrRingBase := Function.update e.intrRingBase (s.posted.length % s.conf.numEntries)
        { y with coalColor := lap s.conf.numEntries s.posted.length } },
    ⟨h.conf, ?_, h.idx, h.vec, h.num, ?_, h.log, h.cidx, h.color, ?_, ?_⟩, ?_⟩
  · show s.intrCoalList.modify s.coalIdx _ = _
    rw [h.list, h.idx]
    rfl
  · show (s.posted ++ [_]).length = _
    rw [List.length_append, h.posted, List.length_singleton]
  · intro i hi
    show (Function.update e.intrRingBase (s.posted.length % s.conf.numEntries) _ i).coalColor = _
    rw [h.conf, h.posted, Nat.mod_eq_of_lt hk]
    rcases Nat.lt_succ_iff_lt_or_eq.mp hi with hlt | rfl
    · rw [Function.update_of_ne hlt.ne]
      exact h.base i hlt
    · rw [Function.update_self]
      exact hlap
  · intro c hc
    change s.call.map _ = some c at hc
    rw [hcall] at hc
    cases hc
  · show s.call.map _ = none
    rw [hcall]
    rfl

/-- A round in the first lap: the index goes on, or wraps at `intr_rng_num_entries`. -/
theorem FirstLap.round {x : IntrConf} {s : IntrSys} {e : IntrCoalConf} {k j : ℕ}
    (h : FirstLap x s e k j) (hj : j < k) (hcall : s.call ≠ none) (hlt : j + 1 < 2 ^ 32) :
    if j + 1 = u16 x.numEntries then
      ∃ e', (s.step .round).intrCoalList = [e'] ∧ e'.cidx = 0 ∧
        (s.step .round).log.length = j + 1 ∧ (s.step .round).coalIdx = 0 ∧
        (s.step .round).conf = x
    else ∃ e', FirstLap x (s.step .round) e' k (j + 1) ∧ (s.step .round).call ≠ none := by
  obtain ⟨c, hc⟩ := Option.ne_none_iff_exists'.mp hcall
  have hcounter := h.counter c hc
  have hidx : s.vidx - s.conf.dvecStartIdx = 0 := h.idx
  have hcolor : (e.intrRingBase j).coalColor = e.color := by
    rw [h.base j hj, h.color]
  have hnext : u32 (j + 1) = j + 1 := u32_of_lt hlt
  have hstep : s.step .round = s.round e c := by
    simp only [IntrSys.step, h.list, h.idx, List.getElem?_cons_zero, hc]
  rw [hstep]
  unfold IntrSys.round IntrSys.advance
  rw [hcounter]
  simp only [hcolor, if_true, h.cidx, hnext, h.num]
  split_ifs with hw
  · refine ⟨{ e with color := !e.color, cidx := 0 }, ?_, rfl, ?_, h.idx, h.conf⟩
    · simp only [IntrSys.setCoal, IntrSys.coalIdx, h.list, hidx, List.modify_zero_cons]
    · show (s.log ++ [_]).length = _
      rw [List.length_append, h.log, List.length_singleton]
  · refine ⟨{ e with cidx := j + 1 },
      { h with list := ?_, log := ?_, cidx := rfl, counter := ?_ }, Option.some_ne_none _⟩
    · simp only [IntrSys.setCoal, IntrSys.coalIdx, h.list, hidx, List.modify_zero_cons]
    · show (s.log ++ [_]).length = _
      rw [List.length_append, h.log, List.length_singleton]
    · intro c' hc'
      cases hc'
      rfl

/-- Up to `k` entries are posted before the handler is entered. -/
theorem firstLap_posted {x : IntrConf} (hq : x.qbase < 2 ^ 11) (hm : 0 < x.qmax) {k : ℕ}
    (hk : k ≤ x.numEntries) :
    ∃ evs s e, Run IntrSys.step IntrLegal (IntrSys.start x 0 [x.coalEntry 0]) evs s ∧
      FirstLap x s e k 0 ∧ s.call = none := by
  induction k with
  | zero =>
      refine ⟨[], _, x.coalEntry 0, Run.nil, ⟨rfl, rfl, Nat.add_sub_cancel .., rfl, rfl, rfl, rfl,
        rfl, rfl, ?_, ?_⟩, rfl⟩
      · exact fun i hi => absurd hi (Nat.not_lt_zero i)
      · exact fun _ hc => (by cases hc)
  | succ k ih =>
      obtain ⟨evs, s, e, hrun, h, hcall⟩ := ih (by omega)
      obtain ⟨e', h', hcall'⟩ := h.post hk hcall { qid := x.qbase }
      refine ⟨_, _, e', hrun.snoc (e := IntrLabel.post { qid := x.qbase }) ⟨?_, ?_, ?_, hq⟩, h',
        hcall'⟩
      · rw [h.posted, h.log, h.conf]
        omega
      · rw [h.conf]
      · rw [h.conf]
        show x.qbase < _
        omega

/-- The handler then dispatches `j` of them, if the index does not wrap before. -/
theorem firstLap_rounds {x : IntrConf} (hq : x.qbase < 2 ^ 11) (hm : 0 < x.qmax) {k j : ℕ}
    (hk : k ≤ x.numEntries) (hj : j ≤ k) (hwrap : ∀ m, 0 < m → m ≤ j → m ≠ u16 x.numEntries) :
    ∃ evs s e, Run IntrSys.step IntrLegal (IntrSys.start x 0 [x.coalEntry 0]) evs s ∧
      FirstLap x s e k j ∧ s.call ≠ none := by
  have hsz := x.intrRngsz.isLt
  unfold IntrConf.numEntries at hk
  induction j with
  | zero =>
      obtain ⟨evs, s, e, hrun, h, hcall⟩ := firstLap_posted hq hm hk
      have hvec : s.conf.msixEntry s.vidx = e.vecId := by rw [h.conf, h.vec]
      have hrun' := hrun.snoc (e := IntrLabel.irq) hcall
      rw [IntrSys.step_irq h.list h.idx hvec] at hrun'
      refine ⟨_, _, e, hrun', { h with counter := ?_ }, Option.some_ne_none _⟩
      intro c hc
      cases hc
      exact h.cidx
  | succ j ih =>
      obtain ⟨evs, s, e, hrun, h, hcall⟩ := ih (by omega) (fun m h0 hm => hwrap m h0 (by omega))
      have hround := h.round hj hcall (by omega)
      rw [if_neg (hwrap (j + 1) (Nat.succ_pos j) le_rfl)] at hround
      obtain ⟨e', h', hcall'⟩ := hround
      exact ⟨_, _, e', hrun.snoc (e := IntrLabel.round) hcall, h', hcall'⟩

/-- A ring of more entries than sixteen bits count goes wrong in its first lap: the index
wraps too early, or not at all. -/
theorem not_intrServed {x : IntrConf} (hq : x.qbase < 2 ^ 11) (hm : 0 < x.qmax)
    (hsz : 126 < x.intrRngsz.val) :
    ∃ evs s, Run IntrSys.step IntrLegal (IntrSys.start x 0 [x.coalEntry 0]) evs s ∧
      ¬ IntrServed s := by
  have hlt := x.intrRngsz.isLt
  have hN : x.numEntries = (x.intrRngsz.val + 1) * 512 := rfl
  have hF : u16 x.numEntries = x.numEntries % 2 ^ 16 := rfl
  rcases Nat.eq_zero_or_pos (u16 x.numEntries) with h0 | hpos
  · -- no wrap: after the last entry the index is behind the ring
    obtain ⟨evs, s, e, hrun, h, -⟩ := firstLap_rounds hq hm le_rfl le_rfl
      (fun m hm _ => by omega : ∀ m, 0 < m → m ≤ x.numEntries → m ≠ u16 x.numEntries)
    refine ⟨evs, s, hrun, fun hs => ?_⟩
    have hi := (hs.index e (by rw [h.list, h.idx]; rfl)).1
    rw [h.cidx, h.conf] at hi
    exact absurd hi (lt_irrefl _)
  · -- the index wraps before the end of the ring
    obtain ⟨evs, s, e, hrun, h, hcall⟩ := firstLap_rounds (k := u16 x.numEntries)
      (j := u16 x.numEntries - 1) hq hm (by omega) (by omega) (fun m _ hm => by omega)
    have hround := h.round (by omega) hcall (by omega)
    rw [if_pos (by omega)] at hround
    obtain ⟨e', hlist, hcidx, hlog, hidx, hconf⟩ := hround
    refine ⟨_, _, hrun.snoc (e := IntrLabel.round) hcall, fun hs => ?_⟩
    have hi := (hs.index e' (by rw [hlist, hidx]; rfl)).2.1
    rw [hcidx, hlog, hconf, Nat.mod_eq_of_lt (by omega)] at hi
    omega

/-- **Interrupt aggregation** loses and repeats nothing exactly for the ring sizes whose
number of entries fits in sixteen bits. -/
theorem intr_aggregation {x : IntrConf} {allocOk : ℕ → Bool} {l : List IntrCoalConf} {i : ℕ}
    (hset : intrRingSetup x allocOk = .ok (true, l)) (hi : i < qdmaDataVecPerPfMax)
    (hq : x.qbase < 2 ^ 11) (hm : 0 < x.qmax) :
    (∀ evs s, Run IntrSys.step IntrLegal (IntrSys.start x i l) evs s → IntrServed s) ↔
      x.intrRngsz.val ≤ 126 := by
  obtain ⟨rfl, rfl⟩ := intrRingSetup_start hset hi
  constructor
  · intro hall
    by_contra hsz
    obtain ⟨evs, s, hrun, hno⟩ := not_intrServed hq hm (not_le.mp hsz)
    exact hno (hall evs s hrun)
  · rintro hsz evs s hrun
    obtain ⟨e, h⟩ := hrun.invariant (I := fun s => ∃ e, IntrInv s e) ⟨_, intrInv_start hsz⟩
      (fun _ l h hl => intrInv_step h l hl)
    exact h.served

/-- A function with eight queues and one data vector, and a ring of `intrRngsz`. -/
def aggConf (intrRngsz : Fin 256) : IntrConf :=
  { numVecs := 4, qsetsMax := 8, intrRngsz := intrRngsz, dvecStartIdx := 2, msixEntry := id
    qbase := 16, qmax := 8 }

theorem intr_aggregation_512 :
    intrRingSetup (aggConf 0) (fun _ => true) = .ok (true, [(aggConf 0).coalEntry 0]) ∧
      ∀ evs s, Run IntrSys.step IntrLegal
        (IntrSys.start (aggConf 0) 0 [(aggConf 0).coalEntry 0]) evs s → IntrServed s := by
  have hset : intrRingSetup (aggConf 0) (fun _ => true) = .ok (true, [(aggConf 0).coalEntry 0]) := rfl
  exact ⟨hset, (intr_aggregation hset (by decide) (by decide) (by decide)).mpr (by decide)⟩

/-- **A ring of 66048 entries wraps after 512.** -/
theorem ring_wraps_early :
    intrRingSetup (aggConf 128) (fun _ => true) = .ok (true, [(aggConf 128).coalEntry 0]) ∧
      ∃ evs s, Run IntrSys.step IntrLegal
        (IntrSys.start (aggConf 128) 0 [(aggConf 128).coalEntry 0]) evs s ∧ ¬ IntrServed s :=
  ⟨rfl, not_intrServed (by decide) (by decide) (by decide)⟩

end Qdma
