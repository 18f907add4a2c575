/-
# The credit ledger

Credits carry no name.  What ties them to requests is that the descriptors in flight
are, in order, those charged to the requests on `pend_list` and then `work_list`, less
the `credit` already reported: the field `ledger` of `CreditInv`.

The invariant needs requests that are interrupted between two entries only (`PassOk`),
and it breaks as soon as a request is taken off the lists while descriptors are charged
to it.  `creditInv_serve`, `CreditInv.wb`, `CreditInv.submit` and `CreditInv.unlink` are
the steps, `pass_rule` the induction over a worker pass.
-/
import Qdma.Serve

namespace Qdma

open RingIndex Blocks

/-! ## The invariant -/

/-- The owners of the descriptors charged to the requests, in the order they are paid. -/
def Descq.owed (q : Descq) : List (Option ℕ) :=
  slots SgtReqCb.descNr (fun cb => some cb.id) q.reqs

/-- **The credit ledger.** -/
structure CreditInv (q : Descq) : Prop where
  ring : RingInv q
  nodup : (q.reqs.map SgtReqCb.id).Nodup
  atEntry : ∀ cb ∈ q.workList, AtEntry cb
  fresh : ∀ cb ∈ q.workList.tail, cb.descNr = 0
  untouched : q.conf.st = false → ∀ cb ∈ q.workList, cb.offset = 0 → cb.descNr = 0
  posted : ∀ cb ∈ q.pendList, cb.offset = cb.req.count
  ledger : q.held = q.owed.drop q.credit
  credit_le : q.credit ≤ q.owed.length

/-- A pass that does not run out of slots inside an entry, and in which no `desc_nr`
wraps. -/
structure PassOk (q : Descq) : Prop where
  stops : StopsAtBlock (q.workList.flatMap (leftDescs q.conf.st)) q.avail
  noWrap : ∀ cb ∈ q.workList, cb.descNr + min q.avail (leftDescs q.conf.st cb).sum < 2 ^ 32

theorem length_held (q : Descq) :
    q.held.length = dist q.conf.rngsz q.cidx q.pidx := length_stretch _ _ _ _

/-- The descriptors in flight and the credits make up what is owed. -/
theorem CreditInv.length_owed {q : Descq} (h : CreditInv q) :
    q.owed.length = q.credit + dist q.conf.rngsz q.cidx q.pidx := by
  have hlen := congrArg List.length h.ledger
  have hle := h.credit_le
  rw [length_held, List.length_drop] at hlen
  omega

/-- A descriptor in flight is charged to a request on the lists. -/
theorem CreditInv.held_owner {q : Descq} (h : CreditInv q) {id : ℕ} (hid : some id ∈ q.held) :
    ∃ cb ∈ q.reqs, cb.id = id ∧ 0 < cb.descNr := by
  rw [h.ledger] at hid
  obtain ⟨cb, hcb, hk, hpos⟩ := (mem_slots _ _).mp (List.mem_of_mem_drop hid)
  exact ⟨cb, hcb, Option.some.inj hk, hpos⟩

theorem CreditInv.not_held {q : Descq} (h : CreditInv q) {id : ℕ}
    (hid : id ∉ q.reqs.map SgtReqCb.id) : some id ∉ q.held := by
  intro hin
  obtain ⟨cb, hcb, rfl, _⟩ := h.held_owner hin
  exact hid (List.mem_map_of_mem hcb)

/-- Only the head of `work_list` may have descriptors charged to it. -/
theorem CreditInv.slots_tail {q : Descq} {cb : SgtReqCb} {rest : List SgtReqCb}
    (h : CreditInv q) (hw : q.workList = cb :: rest) :
    slots SgtReqCb.descNr (fun c => some c.id) rest = [] := by
  have hfresh := h.fresh
  rw [hw] at hfresh
  exact slots_eq_nil _ _ hfresh

theorem CreditInv.owed_head {q : Descq} {cb : SgtReqCb} {rest : List SgtReqCb}
    (h : CreditInv q) (hw : q.workList = cb :: rest) :
    q.owed = slots SgtReqCb.descNr (fun c => some c.id) q.pendList
      ++ List.replicate cb.descNr (some cb.id) := by
  unfold Descq.owed Descq.reqs
  rw [hw, slots_append, slots_cons, h.slots_tail hw, List.append_nil]

/-! ## Serving the head of `work_list` -/

/-- Charging the head of `work_list` for the pieces posted. -/
theorem Posted.charge_head {q d' : Descq} {cb : SgtReqCb} {rest : List SgtReqCb}
    {ps : List Piece} {n b : ℕ} (hp : Posted q d' cb ps) (hw : q.workList = cb :: rest)
    (hnd : (q.reqs.map SgtReqCb.id).Nodup) :
    chargeRequest d' cb n b =
      if (cb.charge n b).offset = cb.req.count then
        { d' with avail := d'.avail - n }.withLists rest (q.pendList ++ [cb.charge n b])
          q.finished
      else { d' with avail := d'.avail - n }.withLists (cb.charge n b :: rest) q.pendList
        q.finished := by
  have hwd : d'.workList = cb :: rest := by
    rw [hp.frame]
    exact hw
  have hpd : d'.pendList = q.pendList := by
    rw [hp.frame]
    rfl
  have hfd : d'.finished = q.finished := by
    rw [hp.frame]
    rfl
  rw [chargeRequest_head hwd (by unfold Descq.reqs; rw [hwd, hpd, ← hw]; exact hnd), hpd, hfd]

/-- What serving the head `cb` can do. -/
inductive HeadServed (q : Descq) (cb : SgtReqCb) (rest : List SgtReqCb) : Descq → Prop
  /-- A memory-mapped request without a byte to transfer fails. -/
  | failed {rv : ℤ} (hrv : rv < 0) (hst : q.conf.st = false)
      (hnil : leftPieces q.conf.st cb = []) (hnr : cb.descNr = 0) :
      HeadServed q cb rest (q.withLists rest q.pendList
        (q.finished ++ [{ cb := cb.finish rv, held := q.held }]))
  /-- Its last byte is posted: it moves to `pend_list`. -/
  | moved {d' : Descq} {ps : List Piece}
      (hps : ps = (leftPieces q.conf.st cb).take q.avail) (hp : Posted q d' cb ps)
      (hall : cb.offset + bytes ps = cb.req.count) :
      HeadServed q cb rest ({ d' with avail := d'.avail - ps.length }.withLists rest
        (q.pendList ++ [{ cb with descNr := cb.descNr + ps.length, offset := cb.req.count }])
        q.finished)
  /-- The ring is full: it stays, between two of its entries. -/
  | stays {d' : Descq} {ps : List Piece}
      (hps : ps = (leftPieces q.conf.st cb).take q.avail) (hp : Posted q d' cb ps)
      (hfull : ps.length = q.avail) (hmore : cb.offset + bytes ps < cb.req.count)
      (hat : AtEntry { cb with
        descNr := cb.descNr + ps.length, offset := cb.offset + bytes ps }) :
      HeadServed q cb rest ({ d' with avail := d'.avail - ps.length }.withLists
        ({ cb with descNr := cb.descNr + ps.length, offset := cb.offset + bytes ps } :: rest)
        q.pendList q.finished)

/-- **Serving the head of `work_list`.** -/
theorem wrkProcOne_head {q : Descq} {cb : SgtReqCb} {rest : List SgtReqCb} (h : CreditInv q)
    (hok : PassOk q) (hw : q.workList = cb :: rest) (hpos : 0 < q.avail) :
    HeadServed q cb rest (wrkProcOne q cb) := by
  have hmem : cb ∈ q.workList := hw ▸ List.mem_cons_self ..
  have hat := h.atEntry cb hmem
  have hwrap := hok.noWrap cb hmem
  have hlt := cb.req.count_lt
  have hstop : StopsAtBlock (leftDescs q.conf.st cb) q.avail := by
    have hstops := hok.stops
    rw [hw, List.flatMap_cons] at hstops
    exact hstops.left
  obtain ⟨i, hi, hilen, _⟩ := resumeAt_atEntry hat
  have hleft : leftEntries cb = cb.req.sgl.drop i := by
    unfold leftEntries
    rw [hi]
  have hsum := sglLen_leftEntries hat
  have h2 := h.ring.one_le
  have havail := h.ring.avail
  have hout := procSgtRequest_outcome cb h.ring.kind h.ring.pidx_lt (by omega) h.ring.rung
  unfold wrkProcOne
  generalize qdmaDescqProcSgtRequest q cb = r at hout
  cases hout with
  | full h0 => omega
  | failed _ hrv why =>
      rw [if_pos hrv, reqDone_work_head _ hw h.nodup]
      rcases why with hnone | ⟨hst, j, off, hj, hnil⟩
      · rw [hi] at hnone
        cases hnone
      · obtain ⟨rfl, rfl⟩ := Prod.mk.inj (Option.some.inj (hi.symm.trans hj))
        have hempty : leftPieces q.conf.st cb = [] := by
          unfold leftPieces
          rw [hleft, hst, hnil]
        -- no piece is left, so no byte is, so the request was never served
        have hzero : sglLen (leftEntries cb) = 0 := by
          rw [← bytes_sglPieces q.conf.st]
          unfold leftPieces at hempty
          rw [hempty, bytes_nil]
        have hmore := hat.more
        exact .failed hrv hst hempty (h.untouched hst cb hmem (by omega))
  | @posted j off d' ps _ hj hps hp =>
      rw [if_neg (show ¬ (0 : ℤ) < 0 by decide)]
      obtain ⟨rfl, rfl⟩ := Prod.mk.inj (Option.some.inj (hi.symm.trans hj))
      rw [← hleft] at hps
      obtain ⟨m, hm⟩ := bytes_take_left hstop
      have hbytes : bytes ps = sglLen ((leftEntries cb).take m) := by
        rw [hps]
        exact hm
      have hble := sglLen_take_le (leftEntries cb) m
      have hlen : ps.length = min q.avail (leftDescs q.conf.st cb).sum := by
        rw [hps, List.length_take, ← length_leftPieces]
        rfl
      have hcharge : cb.charge ps.length (bytes ps)
          = { cb with descNr := cb.descNr + ps.length, offset := cb.offset + bytes ps } := by
        unfold SgtReqCb.charge
        rw [u32_of_lt (by omega), u32_of_lt (by omega)]
      rw [hp.charge_head hw h.nodup, hcharge]
      by_cases hdone : cb.offset + bytes ps = cb.req.count
      · rw [if_pos hdone]
        have hm := @HeadServed.moved q cb rest d' ps hps hp hdone
        rwa [← hdone] at hm
      · rw [if_neg hdone]
        have hfull : ps.length = q.avail := by
          by_contra hne
          have hall : ps = sglPieces q.conf.st (leftEntries cb) := by
            rw [hps]
            refine List.take_of_length_le ?_
            rw [length_sglPieces]
            show (leftDescs q.conf.st cb).sum ≤ q.avail
            omega
          rw [hall, bytes_sglPieces] at hdone
          omega
        refine .stays hps hp hfull (by omega) ⟨hat.total, ⟨i + m, ?_⟩, .inr ?_⟩
        · show cb.offset + bytes ps = _
          rw [← hilen, hbytes, hleft, List.take_add]
          unfold sglLen
          rw [List.map_append, List.sum_append]
        · show cb.offset + bytes ps < cb.req.count
          omega

/-- The owners of the descriptors in flight, read off the descriptors. -/
theorem held_eq (q : Descq) :
    q.held = (stretch q.conf.rngsz q.desc.slot q.cidx q.pidx).map Desc.owner :=
  (stretch_map _ _ _ _ _).symm

/-- The ring after pieces of `cb` were posted. -/
theorem Posted.serves {q d' : Descq} {cb : SgtReqCb} {ps : List Piece} (h : RingInv q)
    (hp : Posted q d' cb ps) (hlen : ps.length ≤ q.avail) (w p : List SgtReqCb)
    (f : List Done) :
    Extends q ({ d' with avail := d'.avail - ps.length }.withLists w p f) ps.length ∧
      ({ d' with avail := d'.avail - ps.length }.withLists w p f).held
        = q.held ++ List.replicate ps.length (some cb.id) ∧
      d'.regs.handed.map Desc.owner
        = q.regs.handed.map Desc.owner ++ List.replicate ps.length (some cb.id) := by
  have havail := h.avail
  have h1 := h.one_le
  have he : Extends q ({ d' with avail := d'.avail - ps.length }.withLists w p f) ps.length :=
    hp.extends h hlen ⟨rfl, rfl, rfl, rfl, rfl, rfl⟩
  have hnew : (RingIndex.stretch q.conf.rngsz d'.desc.slot q.pidx d'.pidx).map Desc.owner
      = List.replicate ps.length (some cb.id) := by
    refine List.ext_getElem ?_ ?_
    · rw [List.length_map, length_stretch, List.length_replicate, hp.pidx,
        dist_adv h.pidx_lt (by omega)]
    · intro j _ h3
      rw [List.length_replicate] at h3
      rw [List.getElem_map, getElem_stretch, List.getElem_replicate]
      exact hp.owner j h3
  refine ⟨he, ?_, ?_⟩
  · rw [held_eq, held_eq, he.stretch h, List.map_append]
    exact congrArg _ hnew
  · have hhanded : d'.regs.handed = _ := he.handed
    rw [hhanded, List.map_append]
    exact congrArg _ hnew

/-- The ledger after `k` more descriptors were charged and posted. -/
theorem CreditInv.ledger_posted {q q' : Descq} {k id : ℕ} (h : CreditInv q)
    (hheld : q'.held = q.held ++ List.replicate k (some id))
    (howed : q'.owed = q.owed ++ List.replicate k (some id)) (hcr : q'.credit = q.credit) :
    q'.held = q'.owed.drop q'.credit ∧ q'.credit ≤ q'.owed.length := by
  have hle := h.credit_le
  refine ⟨?_, ?_⟩
  · rw [hheld, howed, hcr, List.drop_append_of_le_length hle, h.ledger]
  · rw [hcr, howed, List.length_append]
    omega

theorem mem_of_mem_tail {α : Type*} {a : α} {l : List α} (h : a ∈ l.tail) : a ∈ l :=
  (List.tail_sublist l).subset h

/-- **Serving the head keeps the ledger.**  Either the ring is full afterwards or the
head has left `work_list`. -/
theorem creditInv_serve {q q' : Descq} {cb : SgtReqCb} {rest : List SgtReqCb}
    (h : CreditInv q) (hok : PassOk q) (hw : q.workList = cb :: rest)
    (hs : HeadServed q cb rest q') :
    CreditInv q' ∧ (q'.avail = 0 ∨ q'.workList = rest ∧ PassOk q') := by
  have hmem : cb ∈ q.workList := hw ▸ List.mem_cons_self ..
  have hsub : ∀ c ∈ rest, c ∈ q.workList := fun c hc => hw ▸ List.mem_cons_of_mem _ hc
  have htail : ∀ c ∈ rest, c.descNr = 0 := by
    have hfresh := h.fresh
    rwa [hw] at hfresh
  have hnd := h.nodup
  unfold Descq.reqs at hnd
  rw [hw] at hnd
  have hstops := hok.stops
  rw [hw, List.flatMap_cons] at hstops
  have howed := h.owed_head hw
  cases hs with
  | @failed rv hrv hst hnil hnr =>
      have hsum : (leftDescs q.conf.st cb).sum = 0 := by
        rw [← length_leftPieces, hnil]
        rfl
      have hnd' : ((q.pendList ++ rest).map SgtReqCb.id).Nodup := by
        refine List.Nodup.sublist (List.Sublist.map _ ?_) hnd
        exact List.Sublist.append_left (List.sublist_cons_self _ _) _
      have howed' : (q.withLists rest q.pendList
          (q.finished ++ [{ cb := cb.finish rv, held := q.held }])).owed = q.owed := by
        show slots _ _ (q.pendList ++ rest) = _
        rw [howed, slots_append, h.slots_tail hw, hnr, List.replicate_zero]
      refine ⟨⟨h.ring.congr ⟨rfl, rfl, rfl, rfl, rfl, rfl⟩, hnd',
        fun c hc => h.atEntry c (hsub c hc), fun c hc => htail c (mem_of_mem_tail hc),
        fun h1 c hc => h.untouched h1 c (hsub c hc), h.posted, ?_, ?_⟩,
        .inr ⟨rfl, ?_, fun c hc => hok.noWrap c (hsub c hc)⟩⟩
      · rw [howed']
        exact h.ledger
      · rw [howed']
        exact h.credit_le
      · have hright := hstops.right
        rw [hsum] at hright
        exact hright
  | @moved d' ps hps hp hall =>
      have hlen : ps.length = min q.avail (leftDescs q.conf.st cb).sum := by
        rw [hps, List.length_take, ← length_leftPieces]
      obtain ⟨he, hheld, _⟩ := hp.serves h.ring (by omega) rest
        (q.pendList ++ [{ cb with descNr := cb.descNr + ps.length, offset := cb.req.count }])
        q.finished
      set q' := { d' with avail := d'.avail - ps.length }.withLists rest
        (q.pendList ++ [{ cb with descNr := cb.descNr + ps.length, offset := cb.req.count }])
        q.finished with hq'
      have hconf : q'.conf = q.conf := he.conf
      have hcr : q'.credit = q.credit := by
        show d'.credit = q.credit
        rw [hp.frame]
        rfl
      have howed' : q'.owed = q.owed ++ List.replicate ps.length (some cb.id) := by
        show slots _ _ ((q.pendList ++ [_]) ++ rest) = _
        rw [howed, slots_append, slots_append, h.slots_tail hw, slots_cons, slots_nil,
          List.append_nil, List.append_nil, List.append_assoc, List.replicate_append_replicate]
      obtain ⟨hl1, hl2⟩ := h.ledger_posted hheld howed' hcr
      refine ⟨⟨h.ring.extends he, ?_, fun c hc => h.atEntry c (hsub c hc),
        fun c hc => htail c (mem_of_mem_tail hc), ?_, ?_, hl1, hl2⟩, .inr ⟨rfl, ?_, ?_⟩⟩
      · show ((q.pendList ++ [_] ++ rest).map SgtReqCb.id).Nodup
        rw [List.append_assoc, List.singleton_append, List.map_append, List.map_cons]
        rwa [List.map_append, List.map_cons] at hnd
      · rw [hconf]
        exact fun h1 c hc => h.untouched h1 c (hsub c hc)
      · intro c hc
        rcases List.mem_append.mp hc with hc | hc
        · exact h.posted c hc
        · obtain rfl := List.mem_singleton.mp hc
          rfl
      · have hright := hstops.right
        have havail : q'.avail = q.avail - (leftDescs q.conf.st cb).sum := by
          have := he.avail
          omega
        rw [havail, hconf]
        exact hright
      · rw [hconf]
        intro c hc
        have hwrap := hok.noWrap c (hsub c hc)
        have := he.avail
        omega
  | @stays d' ps hps hp hfull hmore hat =>
      obtain ⟨he, hheld, _⟩ := hp.serves h.ring hfull.le
        ({ cb with descNr := cb.descNr + ps.length, offset := cb.offset + bytes ps } :: rest)
        q.pendList q.finished
      have hlen : ps.length = min q.avail (leftDescs q.conf.st cb).sum := by
        rw [hps, List.length_take, ← length_leftPieces]
      set q' := { d' with avail := d'.avail - ps.length }.withLists
        ({ cb with descNr := cb.descNr + ps.length, offset := cb.offset + bytes ps } :: rest)
        q.pendList q.finished with hq'
      have hconf : q'.conf = q.conf := he.conf
      have hcr : q'.credit = q.credit := by
        show d'.credit = q.credit
        rw [hp.frame]
        rfl
      have howed' : q'.owed = q.owed ++ List.replicate ps.length (some cb.id) := by
        show slots _ _ (q.pendList ++ _ :: rest) = _
        rw [howed, slots_append, slots_cons, h.slots_tail hw, List.append_nil,
          List.append_assoc, List.replicate_append_replicate]
      obtain ⟨hl1, hl2⟩ := h.ledger_posted hheld howed' hcr
      refine ⟨⟨h.ring.extends he, ?_, ?_, htail, ?_, h.posted, hl1, hl2⟩, .inl ?_⟩
      · show ((q.pendList ++ _ :: rest).map SgtReqCb.id).Nodup
        rw [List.map_append, List.map_cons]
        rwa [List.map_append, List.map_cons] at hnd
      · intro c hc
        rcases List.mem_cons.mp hc with rfl | hc
        · exact hat
        · exact h.atEntry c (hsub c hc)
      · rw [hconf]
        intro hst c hc h0
        rcases List.mem_cons.mp hc with rfl | hc
        · -- on a memory-mapped queue no byte posted means no piece posted
          have h0' : cb.offset + bytes ps = 0 := h0
          have hnil : ps = [] := by
            refine eq_nil_of_bytes (fun p hp' => ?_) (by omega)
            rw [hps] at hp'
            unfold leftPieces at hp'
            rw [hst] at hp'
            exact mmPieces_len_pos p (List.mem_of_mem_take hp')
          show cb.descNr + ps.length = 0
          rw [hnil, h.untouched hst cb hmem (by omega)]
          rfl
        · exact h.untouched hst c (hsub c hc) h0
      · have := he.avail
        omega

/-! ## A worker pass -/

/-- On a full ring nothing is served. -/
theorem wrkProcOne_full {q : Descq} (h : RingInv q) (h0 : q.avail = 0) (cb : SgtReqCb) :
    wrkProcOne q cb = q := by
  have havail := h.avail
  have h1 := h.one_le
  have hout := procSgtRequest_outcome cb h.kind h.pidx_lt (by omega) h.rung
  unfold wrkProcOne
  generalize qdmaDescqProcSgtRequest q cb = r at hout
  cases hout with
  | full _ => exact if_neg (show ¬ (0 : ℤ) < 0 by decide)
  | failed hpos _ _ => omega
  | posted hpos _ _ _ => omega

/-- **Induction over a worker pass.**  What holds of the queue and is kept when the head
of `work_list` is served holds after the pass, and so does the ledger. -/
theorem serve_rule {P : Descq → Prop}
    (hP : ∀ q cb rest, CreditInv q → PassOk q → q.workList = cb :: rest → 0 < q.avail →
      P q → P (wrkProcOne q cb))
    {q : Descq} (h : CreditInv q) (hok : PassOk q) (hp : P q) :
    CreditInv (qdmaThreadWrkProc q) ∧ P (qdmaThreadWrkProc q) := by
  unfold qdmaThreadWrkProc
  generalize hw : q.workList = cbs
  induction cbs generalizing q with
  | nil => exact ⟨h, hp⟩
  | cons cb cbs ih =>
      rw [wrkProcLoop_cons]
      by_cases h0 : q.avail = 0
      · rw [wrkProcOne_full h.ring h0, if_pos h0]
        exact ⟨h, hp⟩
      · have hs := wrkProcOne_head h hok hw (by omega)
        obtain ⟨hinv, hnext⟩ := creditInv_serve h hok hw hs
        have hp' := hP q cb cbs h hok hw (by omega) hp
        rcases hnext with hz | ⟨hw', hok'⟩
        · rw [if_pos hz]
          exact ⟨hinv, hp'⟩
        · split_ifs
          · exact ⟨hinv, hp'⟩
          · exact ih hinv hok' hp' hw'

/-- The same, for what follows from how the head can be served. -/
theorem pass_rule {P : Descq → Prop}
    (hP : ∀ q cb rest q', CreditInv q → PassOk q → q.workList = cb :: rest → 0 < q.avail →
      P q → HeadServed q cb rest q' → P q')
    {q : Descq} (h : CreditInv q) (hok : PassOk q) (hp : P q) :
    CreditInv (qdmaThreadWrkProc q) ∧ P (qdmaThreadWrkProc q) :=
  serve_rule (fun q cb rest hinv hok hw hpos hq =>
    hP q cb rest _ hinv hok hw hpos hq (wrkProcOne_head hinv hok hw hpos)) h hok hp

/-! ## A writeback -/

/-- The queue after a writeback that found news. -/
def Descq.settled (q : Descq) : Descq :=
  let r := settleCbs q.pendList (q.reported + q.credit)
  { q.caughtUp.withLists q.workList r.2.1
      (q.finished ++ r.1.map (fun cb => { cb := cb.finish 0, held := q.caughtUp.held })) with
    credit := r.2.2 }

theorem CreditInv.reported_le {q : Descq} (h : CreditInv q) :
    q.reported + q.credit ≤ q.owed.length := by
  have howed := h.length_owed
  have hwb := h.ring.wb_le
  unfold Descq.reported
  omega

/-- A writeback finds no news or settles the requests. -/
theorem CreditInv.wb_eq {q : Descq} (h : CreditInv q) (hlt : q.reported + q.credit < 2 ^ 32) :
    (q.reported = 0 ∧ descqMmNH2cWb q = q) ∨
      (0 < q.reported ∧ descqMmNH2cWb q = q.settled) := by
  rcases descqMmNH2cWb_cases h.ring with ⟨h0, heq⟩ | ⟨hpos, heq⟩
  · exact .inl ⟨h0, heq⟩
  · rw [heq, reqUpdatePend_eq (d := q.caughtUp) h.nodup hlt]
    exact .inr ⟨hpos, rfl⟩

/-- How a writeback splits `pend_list`: the requests it completes, then those it leaves,
of which the first may have been paid in part. -/
theorem settled_spec (q : Descq) :
    ∃ done tail, q.pendList = done ++ tail ∧
      q.settled.finished = q.finished
        ++ done.map (fun cb => { cb := cb.finish 0, held := q.caughtUp.held }) ∧
      (q.settled.pendList = tail ∧ (tail = [] ∨ q.settled.credit = 0) ∨
        ∃ a t k, tail = a :: t ∧ k < a.descNr ∧ q.settled.pendList = a.pay k :: t ∧
          q.settled.credit = 0) := by
  obtain ⟨tail, heq, hrest⟩ :=
    settle_spec SgtReqCb.descNr SgtReqCb.pay q.pendList (q.reported + q.credit)
  refine ⟨_, tail, heq, rfl, ?_⟩
  rcases hrest with ⟨h1, h2⟩ | ⟨a, t, k, h1, h2, h3⟩
  · exact .inl ⟨h1, h2⟩
  · exact .inr ⟨a, t, k, h1, h2, congrArg Prod.fst h3, congrArg Prod.snd h3⟩

/-- Paying a request in part changes none of its other fields. -/
theorem settled_ids {q : Descq} {done tail : List SgtReqCb}
    (h : q.settled.pendList = tail ∧ (tail = [] ∨ q.settled.credit = 0) ∨
      ∃ a t k, tail = a :: t ∧ k < a.descNr ∧ q.settled.pendList = a.pay k :: t ∧
        q.settled.credit = 0) (hpend : q.pendList = done ++ tail) :
    q.settled.pendList.map SgtReqCb.id = tail.map SgtReqCb.id ∧
      ∀ c ∈ q.settled.pendList, ∃ b ∈ q.pendList, c.req = b.req ∧ c.offset = b.offset ∧
        c.id = b.id := by
  rw [hpend]
  rcases h with ⟨h1, _⟩ | ⟨a, t, k, rfl, _, h3, _⟩
  · rw [h1]
    exact ⟨rfl, fun c hc => ⟨c, List.mem_append_right _ hc, rfl, rfl, rfl⟩⟩
  · rw [h3]
    refine ⟨rfl, fun c hc => ?_⟩
    rcases List.mem_cons.mp hc with rfl | hc
    · exact ⟨a, List.mem_append_right _ (List.mem_cons_self ..), rfl, rfl, rfl⟩
    · exact ⟨c, List.mem_append_right _ (List.mem_cons_of_mem _ hc), rfl, rfl, rfl⟩

/-- **A writeback keeps the ledger.** -/
theorem CreditInv.settled {q : Descq} (h : CreditInv q) : CreditInv q.settled := by
  obtain ⟨done, tail, hpend, _, hrest⟩ := settled_spec q
  obtain ⟨hids, hsame⟩ := settled_ids hrest hpend
  have hslots := settle_slots SgtReqCb.descNr SgtReqCb.pay (fun cb => some cb.id)
    (fun _ _ => rfl) (fun _ _ => rfl) q.pendList (q.reported + q.credit)
    (slots SgtReqCb.descNr (fun cb => some cb.id) q.workList)
  have hunits := settle_units SgtReqCb.descNr SgtReqCb.pay (fun cb => some cb.id)
    (fun _ _ => rfl) q.pendList (q.reported + q.credit)
  have howed : q.owed = slots SgtReqCb.descNr (fun cb => some cb.id) q.pendList
      ++ slots SgtReqCb.descNr (fun cb => some cb.id) q.workList := slots_append _ _ _ _
  have howed' : q.settled.owed
      = slots SgtReqCb.descNr (fun cb => some cb.id) q.settled.pendList
        ++ slots SgtReqCb.descNr (fun cb => some cb.id) q.workList := slots_append _ _ _ _
  have hle : q.settled.credit ≤ q.settled.owed.length := by
    have hrep := h.reported_le
    rw [howed, List.length_append] at hrep
    rw [howed', List.length_append]
    show (settle _ _ _ _).2.2 ≤ (slots _ _ (settle _ _ _ _).2.1).length + _
    omega
  refine ⟨h.ring.caughtUp.congr ⟨rfl, rfl, rfl, rfl, rfl, rfl⟩, ?_, h.atEntry, h.fresh,
    h.untouched, ?_, ?_, hle⟩
  · have hnd := h.nodup
    unfold Descq.reqs at hnd ⊢
    rw [hpend, List.append_assoc, List.map_append] at hnd
    rw [List.map_append, hids, ← List.map_append]
    exact (List.nodup_append.mp hnd).2.1
  · intro c hc
    obtain ⟨b, hb, hreq, hoff, _⟩ := hsame c hc
    rw [hreq, hoff]
    exact h.posted b hb
  · show q.caughtUp.held = q.settled.owed.drop q.settled.credit
    rw [caughtUp_held h.ring, h.ledger, List.drop_drop, howed']
    rw [howed, Nat.add_comm]
    exact hslots.symm

/-! ## Submitting and unlinking -/

theorem enqueue_reqs (q : Descq) (cb : SgtReqCb) : (q.enqueue cb).reqs = q.reqs ++ [cb] :=
  (List.append_assoc _ _ _).symm

/-- A new request whose entries add up. -/
theorem CreditInv.enqueue {q : Descq} (h : CreditInv q) {id : ℕ} {req : Request}
    (hid : id ∉ q.reqs.map SgtReqCb.id) (htotal : sglLen req.sgl = req.count) :
    CreditInv (q.enqueue (req.newCb id)) := by
  -- a request that has posted nothing owes nothing
  have howed : (q.enqueue (req.newCb id)).owed = q.owed := by
    unfold Descq.owed
    rw [enqueue_reqs, slots_append, slots_cons]
    exact (List.append_nil _)
  refine ⟨h.ring.congr ⟨rfl, rfl, rfl, rfl, rfl, rfl⟩, ?_, ?_, ?_, ?_, h.posted, ?_, ?_⟩
  · rw [enqueue_reqs, List.map_append]
    refine List.nodup_append.mpr ⟨h.nodup, List.nodup_singleton _, fun a ha b hb hab => ?_⟩
    have hb' : b = id := List.mem_singleton.mp hb
    exact hid (hb' ▸ hab ▸ ha)
  · intro cb hcb
    rcases List.mem_append.mp hcb with hcb | hcb
    · exact h.atEntry cb hcb
    · obtain rfl := List.mem_singleton.mp hcb
      exact ⟨htotal, ⟨0, rfl⟩, .inl rfl⟩
  · intro cb hcb
    rcases List.mem_append.mp (mem_of_mem_tail hcb) with _ | hcb'
    · -- the new request may be the first of the list, and then is not in its tail
      have hfresh := h.fresh
      unfold Descq.enqueue at hcb
      cases hw : q.workList with
      | nil =>
          simp only [hw] at hcb
          cases hcb
      | cons c rest =>
          simp only [hw, List.cons_append, List.tail_cons] at hcb hfresh
          rcases List.mem_append.mp hcb with hcb | hcb
          · exact hfresh cb hcb
          · rw [List.mem_singleton.mp hcb]
            rfl
    · rw [List.mem_singleton.mp hcb']
      rfl
  · intro hst cb hcb
    rcases List.mem_append.mp hcb with hcb | hcb
    · exact h.untouched hst cb hcb
    · rw [List.mem_singleton.mp hcb]
      exact fun _ => rfl
  · rw [howed]
    exact h.ledger
  · rw [howed]
    exact h.credit_le

theorem mem_tail_filter {α : Type*} {p : α → Bool} {a : α} {l : List α}
    (h : a ∈ (l.filter p).tail) : a ∈ l.tail := by
  cases l with
  | nil => cases h
  | cons b l =>
      rw [List.tail_cons]
      by_cases hb : p b = true
      · rw [List.filter_cons_of_pos hb, List.tail_cons] at h
        exact List.mem_of_mem_filter h
      · rw [List.filter_cons_of_neg hb] at h
        exact List.mem_of_mem_filter (mem_of_mem_tail h)

/-- Taking a request without a descriptor off the lists. -/
theorem CreditInv.unlink {q : Descq} (h : CreditInv q) {id : ℕ}
    (hnr : ∀ cb ∈ q.reqs, cb.id = id → cb.descNr = 0) : CreditInv (q.listDel id) := by
  have hslots : ∀ l : List SgtReqCb, (∀ cb ∈ l, cb.id = id → cb.descNr = 0) →
      slots SgtReqCb.descNr (fun cb => some cb.id) (l.filter (fun c => c.id ≠ id))
        = slots SgtReqCb.descNr (fun cb => some cb.id) l := by
    intro l hl
    induction l with
    | nil => rfl
    | cons cb l ih =>
        have ih' := ih (fun c hc => hl c (List.mem_cons_of_mem _ hc))
        by_cases hcb : cb.id = id
        · rw [List.filter_cons_of_neg (by simp [hcb]), ih', slots_cons,
            hl cb (List.mem_cons_self ..) hcb, List.replicate_zero, List.nil_append]
        · rw [List.filter_cons_of_pos (by simp [hcb]), slots_cons, slots_cons, ih']
  have hreqs : (q.listDel id).reqs = q.reqs.filter (fun c => c.id ≠ id) := by
    unfold Descq.reqs Descq.listDel
    rw [List.filter_append]
  have howed : (q.listDel id).owed = q.owed := by
    unfold Descq.owed
    rw [hreqs]
    exact hslots q.reqs hnr
  refine ⟨h.ring.congr ⟨rfl, rfl, rfl, rfl, rfl, rfl⟩, ?_,
    fun cb hcb => h.atEntry cb (List.mem_of_mem_filter hcb),
    fun cb hcb => h.fresh cb (mem_tail_filter hcb),
    fun hst cb hcb => h.untouched hst cb (List.mem_of_mem_filter hcb),
    fun cb hcb => h.posted cb (List.mem_of_mem_filter hcb), ?_, ?_⟩
  · rw [hreqs]
    exact h.nodup.sublist (List.Sublist.map _ List.filter_sublist)
  · rw [howed]
    exact h.ledger
  · rw [howed]
    exact h.credit_le

/-- A device write changes no account. -/
theorem CreditInv.hw {s : Sys} {c : ℕ} (h : CreditInv s.q) (hok : Legal s (.hw c)) :
    CreditInv (s.hw c).q :=
  { h with ring := h.ring.hw hok }

/-- A queue just started owes nothing. -/
theorem Started.creditInv {q : Descq} (h : Started q) : CreditInv q := by
  obtain ⟨hring, hw, hp, _, hc, _, heq, _⟩ := h.spec
  have howed : q.owed = [] := by
    unfold Descq.owed Descq.reqs
    rw [hw, hp]
    rfl
  refine ⟨hring, ?_, ?_, ?_, ?_, ?_, ?_, by rw [hc]; exact Nat.zero_le _⟩
  · unfold Descq.reqs
    rw [hw, hp]
    exact List.nodup_nil
  · rw [hw]
    exact fun _ hcb => absurd hcb (List.not_mem_nil)
  · rw [hw]
    exact fun _ hcb => absurd hcb (List.not_mem_nil)
  · rw [hw]
    exact fun _ _ hcb => absurd hcb (List.not_mem_nil)
  · rw [hp]
    exact fun _ hcb => absurd hcb (List.not_mem_nil)
  · rw [howed, List.drop_nil]
    unfold Descq.held
    rw [heq, stretch_self]

end Qdma
