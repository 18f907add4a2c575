/-
# What the two receive paths give back

A queue with packet handler and a queue without, on the same traffic and with the same
service calls.  The handler takes every packet and the refills succeed; on the other queue
the pending requests read every packet to its end.

The queue with handler then is always one buffer and one entry behind: `rcv_pkt` moves
`pidx_pend` to the last buffer of a packet and `cidx_wrb_pend` to its entry, while reading
moves them to the buffer and the entry after these.  So the two agree only as long as no
entry carries a packet (`same_space_iff`).
-/
import Qdma.Upper

namespace Qdma

open RingIndex Exec

/-- A queue with packet handler and a queue without. -/
structure Px where
  up : Cx
  dflt : Cx

/-- The device writes to both queues, a caller uses the queue without handler, or both
queues are serviced. -/
inductive PxLabel where
  | device (l : RxLabel)
  | caller (l : RxLabel)
  | service (budget : ℤ) (fill : ℕ → FillOutcome) (fp : PktArgs → ℤ)

/-- One step. -/
def Px.step (p : Px) : PxLabel → Px
  | .device l => { up := p.up.step (.rx l), dflt := p.dflt.step (.rx l) }
  | .caller l => { p with dflt := p.dflt.step (.rx l) }
  | .service budget fill fp =>
      { up := p.up.step (.upper budget fill fp)
        dflt := p.dflt.step (.rx (.service budget fill)) }

/-- The step is one of a caller. -/
def RxLabel.Caller : RxLabel → Prop
  | .submit _ => True
  | .pend _ => True
  | .wait _ => True
  | .packetRead _ => True
  | _ => False

/-- All buffers received are read. -/
def Descq.AllRead (d : Descq) : Prop := d.flq.pidxPend = d.pidx

/-- The device has room in both queues; if a service call has entries to go through, the
pending requests read the packets to their end. -/
def PxLegal (p : Px) : PxLabel → Prop
  | .device l => l.Device ∧ RxLegal p.up.s l ∧ RxLegal p.dflt.s l
  | .caller l => l.Caller ∧ RxLegal p.dflt.s l
  | .service budget fill _ =>
      (p.dflt.s.due budget ≠ 0 → p.dflt.s.q.pendList ≠ []) ∧
        (p.dflt.s.step (.service budget fill)).q.AllRead

instance (l : RxLabel) : Decidable l.Caller :=
  match l with
  | .submit _ | .pend _ | .wait _ | .packetRead _ => inferInstanceAs (Decidable True)
  | .service _ _ | .dma _ _ | .publish _ => inferInstanceAs (Decidable False)

instance (d : Descq) : Decidable d.AllRead := inferInstanceAs (Decidable (_ = _))

instance (p : Px) (l : PxLabel) : Decidable (PxLegal p l) :=
  match l with
  | .device _ => inferInstanceAs (Decidable (_ ∧ _))
  | .caller _ => inferInstanceAs (Decidable (_ ∧ _))
  | .service _ _ _ => inferInstanceAs (Decidable ((_ → _) ∧ _))

/-- The handler takes every packet, and every refill succeeds. -/
def PxLabel.Succeeds : PxLabel → Prop
  | .service _ fill fp => (∀ a, 0 ≤ fp a) ∧ ∀ i, (fill i).isOk = true
  | _ => True

/-- The two queues have given back the same. -/
structure SameSpace (a b : Descq) : Prop where
  pidxBell : a.regs.pidx = b.regs.pidx
  wrbBell : a.regs.wrbCidx = b.regs.wrbCidx
  pidxPend : a.flq.pidxPend = b.flq.pidxPend
  avail : a.avail = b.avail

/-- The rings have the same sizes. -/
structure SameRings (a b : Descq) : Prop where
  rngsz : b.conf.rngsz = a.conf.rngsz
  rngszWrb : b.conf.rngszWrb = a.conf.rngszWrb
  bufsz : b.conf.c2hBufsz = a.conf.c2hBufsz

/-- **The law of the pair**: the same `r` entries are gone through, and on the queue without
handler their buffers are read. -/
structure PxInv (p : Px) (r : ℕ) : Prop where
  up : UpLaw p.up.s r
  dflt : RxInv p.dflt.s r (bufCnt p.dflt.s.q p.dflt.s.sent r)
  upErr : p.up.s.q.err = false
  dfltErr : p.dflt.s.q.err = false
  log : p.up.log.length = r
  sent : p.dflt.s.sent = p.up.s.sent
  wbPidx : p.dflt.s.q.descWrb.wbPidx = p.up.s.q.descWrb.wbPidx
  rings : SameRings p.up.s.q p.dflt.s.q

theorem SameRings.of_conf {a b a' b' : Descq} (h : SameRings a b) (ha : a'.conf = a.conf)
    (hb : b'.conf = b.conf) : SameRings a' b' := by
  obtain ⟨h1, h2, h3⟩ := h
  constructor
  · rw [ha, hb]; exact h1
  · rw [ha, hb]; exact h2
  · rw [ha, hb]; exact h3

theorem descWrb_service (d : Descq) (budget : ℤ) (fill : ℕ → FillOutcome) :
    (descqProcessCompletionStC2h d budget fill).1.descWrb = d.descWrb :=
  ServeFrame.processCompletion (f := Descq.descWrb)
    ⟨⟨⟨fun _ _ _ => rfl, fun _ _ => rfl, fun _ _ => rfl⟩, fun _ _ => rfl, fun _ _ => rfl,
      fun _ _ => rfl⟩, fun _ _ _ _ => rfl, fun _ _ _ => rfl⟩
    ⟨⟨fun _ _ _ => rfl, fun _ _ => rfl, fun _ _ => rfl⟩, fun _ _ => rfl, fun _ _ _ _ => rfl⟩
    d budget fill

/-- An entry without a packet reports no buffer, one with a packet at least one. -/
theorem bufCnt_eq_zero (d : Descq) (sent : List Cmpl) (r : ℕ) :
    bufCnt d sent r = 0 ↔ ∀ c ∈ sent.take r, c.word.testBit 3 = false := by
  unfold bufCnt allBufs
  rw [List.length_eq_zero_iff, List.flatMap_eq_nil_iff]
  apply forall₂_congr
  intro c _
  unfold Cmpl.bufs packetBufs
  constructor
  · intro h
    by_contra hb
    rw [if_pos (Bool.not_eq_false _ ▸ hb)] at h
    have hlen := length_cutBufs d.conf.c2hBufsz c.seq (pktNr d.conf.c2hBufsz c.payload.length - 1)
      c.payload
    rw [h] at hlen
    exact absurd hlen (Nat.succ_ne_zero _).symm
  · intro h
    rw [if_neg (by rw [h]; decide)]

/-- Where all buffers are read there are no more to read. -/
theorem RxInv.all_read {s : Rx} {r pend : ℕ} (h : RxInv s r pend) (hall : s.q.AllRead) :
    pend = bufCnt s.q s.sent r := by
  have hle := h.serving.rx.fl.pend_le
  have hlt := h.serving.rx.fl.lt
  have heq : pend % s.q.conf.rngsz = bufCnt s.q s.sent r % s.q.conf.rngsz :=
    h.serving.rx.pidxPend.symm.trans (hall.trans h.pidx)
  unfold bufCnt at heq ⊢
  by_contra hne
  exact absurd heq (mod_ne_mod (by omega) hlt)

/-! ## Steps -/

theorem PxInv.device {p : Px} {r : ℕ} (h : PxInv p r) {l : RxLabel} (hdev : l.Device)
    (hup : RxLegal p.up.s l) (hdflt : RxLegal p.dflt.s l) : PxInv (p.step (.device l)) r := by
  obtain ⟨h1, h2, h3, h4, h5, h6, h7, h8⟩ := h
  cases l with
  | dma word payload =>
      refine ⟨h1.dma hup, ?_, h3, h4, h5, ?_, h7, h8.of_conf rfl rfl⟩
      · show RxInv (p.dflt.s.dma word payload) r
          (bufCnt p.dflt.s.q (p.dflt.s.sent ++ [_]) r)
        rw [bufCnt_append _ h2.serving.ring.le]
        exact h2.dma hdflt
      · show p.dflt.s.sent ++ [_] = p.up.s.sent ++ [_]
        rw [h6]
  | publish pidx =>
      exact ⟨h1.publish hup, h2.publish hdflt.1 hdflt.2, h3, h4, h5, h6, rfl, h8.of_conf rfl rfl⟩
  | submit | pend | wait | packetRead | service => exact absurd hdev id

/-- A caller finds nothing to read. -/
theorem PxInv.caller {p : Px} {r : ℕ} (h : PxInv p r) {l : RxLabel} (hcall : l.Caller) :
    PxInv (p.step (.caller l)) r := by
  obtain ⟨h1, h2, h3, h4, h5, h6, h7, h8⟩ := h
  have hdev : ¬ l.Device := by
    cases l <;> first | exact id | exact absurd hcall id
  have hno : ∀ budget fill, l ≠ .service budget fill := by
    rintro budget fill rfl
    exact hcall
  obtain ⟨hpart, hsent⟩ := cmplPart_callers p.dflt.s hdev hno
  have hstep : p.step (.caller l) = { p with dflt := { p.dflt with s := p.dflt.s.step l } } := by
    cases l with
    | service budget fill => exact absurd rfl (hno budget fill)
    | dma | publish | submit | pend | wait | packetRead => rfl
  have hconf : (p.dflt.s.step l).q.conf = p.dflt.s.q.conf := congrArg (·.1) hpart
  obtain ⟨k, hinv⟩ := h2.callers hdev hno
  -- what is read is among the buffers of these entries, and they are all read
  have hk : k = 0 := by
    have hle : bufCnt p.dflt.s.q p.dflt.s.sent r + k ≤ bufCnt (p.dflt.s.step l).q
      (p.dflt.s.step l).sent r := hinv.serving.rx.fl.pend_le
    rw [hsent, bufCnt_congr hconf] at hle
    omega
  subst hk
  rw [hstep]
  refine ⟨h1, ?_, h3, (congrArg (·.2.1) hpart).trans h4, h5, hsent.trans h6,
    (congrArg (fun x => x.2.2.2.2.2.2.wbPidx) hpart).trans h7, h8.of_conf rfl hconf⟩
  show RxInv (p.dflt.s.step l) r (bufCnt (p.dflt.s.step l).q (p.dflt.s.step l).sent r)
  rw [hsent, bufCnt_congr hconf]
  exact hinv

/-- The same entries are due on both queues. -/
theorem PxInv.due {p : Px} {r : ℕ} (h : PxInv p r) (budget : ℤ) :
    p.up.s.due budget = p.dflt.s.due budget := by
  unfold Rx.due
  rw [h.wbPidx, h.dflt.serving.ring.cidx, h.up.up.ring.cidx, h.rings.rngszWrb]

/-- **A service call** goes through the same entries on both queues. -/
theorem PxInv.service {p : Px} {r : ℕ} (h : PxInv p r) {budget : ℤ} {fill : ℕ → FillOutcome}
    {fp : PktArgs → ℤ} (hl : PxLegal p (.service budget fill fp)) (hfp : ∀ a, 0 ≤ fp a)
    (hfill : ∀ i, (fill i).isOk = true) : ∃ r', PxInv (p.step (.service budget fill fp)) r' := by
  obtain ⟨hpend, hall⟩ := hl
  have hdue := h.due budget
  obtain ⟨h1, h2, h3, h4, h5, h6, h7, h8⟩ := h
  -- the queue with handler
  have hacc : (p.up.s.withHandler fp).q.Accepts := by
    intro fp' hfp'
    rw [← Option.some.inj (Option.mem_def.mp hfp')]
    exact hfp
  obtain ⟨j, -, hjs, hlog, hkeep, hj⟩ := (h1.up.withHandler fp).service budget fill
  have hlen := length_of_firstEntries hjs hlog
  have hup := (h1.withHandler fp).service h3 budget ⟨fp, rfl, fun a _ => hfp a⟩ hfill
    (fun _ => false)
  rw [hlen] at hup
  have hjup : j = p.up.s.due budget := hj h3 hacc
  -- the queue without
  obtain ⟨j', ⟨pend', hinv⟩, -, hkeep', hle, hj'⟩ := h2.service_call budget fill
  have hjj : j' = j := by
    by_cases h0 : p.dflt.s.due budget = 0
    · omega
    · have := hj' h4 (.inr (.inl (hpend h0)))
      omega
  subst hjj
  have hread := hinv.all_read hall
  subst hread
  have hwb : (descqProcessCompletionStC2h p.dflt.s.q budget fill).1.descWrb.wbPidx
      = (descqProcessCompletionStC2h (p.up.s.withHandler fp).q budget fill).1.descWrb.wbPidx := by
    rw [descWrb_service, descWrb_service]
    exact h7
  refine ⟨r + j', hup.1, hinv, hkeep.err.trans h3, hkeep'.err.trans h4, ?_, h6, hwb,
    SameRings.of_conf (a := (p.up.s.withHandler fp).q) (b := p.dflt.s.q)
      ⟨h8.rngsz, h8.rngszWrb, h8.bufsz⟩ hkeep.conf hkeep'.conf⟩
  show (p.up.log ++ processed (p.up.s.withHandler fp).q budget).length = r + j'
  rw [List.length_append, h5, hlen]

/-- **Step lemma.** -/
theorem PxInv.step {p : Px} (h : ∃ r, PxInv p r) {l : PxLabel} (hl : PxLegal p l)
    (hs : l.Succeeds) : ∃ r, PxInv (p.step l) r := by
  obtain ⟨r, h⟩ := h
  cases l with
  | device l => exact ⟨r, h.device hl.1 hl.2.1 hl.2.2⟩
  | caller l => exact ⟨r, h.caller hl.1⟩
  | service budget fill fp => exact h.service hl hs.1 hs.2

/-! ## What is given back -/

/-- Without a packet nothing is used on either queue. -/
theorem PxInv.same {p : Px} {r : ℕ} (h : PxInv p r) (h0 : bufCnt p.up.s.q p.up.s.sent r = 0) :
    SameSpace p.up.s.q p.dflt.s.q := by
  have h0' : bufCnt p.dflt.s.q p.dflt.s.sent r = 0 := by
    unfold bufCnt at h0 ⊢
    rw [h.rings.bufsz, h.sent]
    exact h0
  have hbufs := h.up.bufs
  have hrx := h.dflt
  rw [h0] at hbufs
  rw [h0'] at hrx
  constructor
  · rw [h.up.bell, hrx.bell, h0, h.rings.rngsz]
  · obtain ⟨v, hv, hle, -⟩ := hrx.wrbBell
    have hv0 : v = 0 := Nat.le_zero.mp hle
    rw [(h.up.unused h0).2, hv, hv0, Nat.zero_mod]
  · rw [hbufs.pidxPend, h0, hrx.serving.rx.pidxPend, h.rings.rngsz]
  · have havail := hbufs.avail
    have havail' := hrx.serving.rx.fl.avail_eq
    have hlen : (allBufs p.dflt.s.q.conf.c2hBufsz (p.dflt.s.sent.take r)).length = 0 := h0'
    rw [h0] at havail
    rw [hlen, h.rings.rngsz] at havail'
    omega

/-- **With a packet the queue with handler is one buffer behind.** -/
theorem PxInv.behind {p : Px} {r : ℕ} (h : PxInv p r) (h0 : bufCnt p.up.s.q p.up.s.sent r ≠ 0) :
    p.up.s.q.flq.pidxPend ≠ p.dflt.s.q.flq.pidxPend := by
  have heq : bufCnt p.dflt.s.q p.dflt.s.sent r = bufCnt p.up.s.q p.up.s.sent r := by
    unfold bufCnt
    rw [h.rings.bufsz, h.sent]
  have hroom := h.up.bufs.room
  have hle := bufCnt_le p.up.s.q p.up.s.sent r
  rw [h.up.bufs.pidxPend, h.dflt.serving.rx.pidxPend, heq, h.rings.rngsz]
  exact mod_ne_mod (by omega) (by omega)

/-- **The two paths give back the same space only as long as no entry carries a packet.** -/
theorem same_space_iff {qu qd : Descq} (hu : StartedC2h qu) (hd : StartedC2h qd)
    (hup : qu.conf.fpDescqC2hPacket.isSome)
    (hequal : qd.conf = { qu.conf with fpDescqC2hPacket := none }) {evs : List PxLabel} {p : Px}
    (hrun : Run Px.step (fun p l => PxLegal p l ∧ l.Succeeds)
      { up := { s := { q := qu } }, dflt := { s := { q := qd } } } evs p) :
    SameSpace p.up.s.q p.dflt.s.q ↔
      ∀ c ∈ p.up.s.sent.take p.up.log.length, c.word.testBit 3 = false := by
  have hnone : qd.conf.fpDescqC2hPacket = none := by rw [hequal]
  have hlaw := hu.upLaw hup
  have hrx := (hd.startedRx hnone).rxInv
  have hinit : PxInv { up := { s := { q := qu } }, dflt := { s := { q := qd } } } 0 := by
    refine ⟨hlaw, hrx, hu.err, hd.err, rfl, rfl, ?_, ?_⟩
    · obtain ⟨w, hw, -, hle⟩ := hlaw.up.published
      obtain ⟨w', hw', -, hle'⟩ := hrx.published
      rw [hw, hw', Nat.le_zero.mp hle, Nat.le_zero.mp hle', Nat.zero_mod, Nat.zero_mod]
    · constructor
      · show qd.conf.rngsz = qu.conf.rngsz
        rw [hequal]
      · show qd.conf.rngszWrb = qu.conf.rngszWrb
        rw [hequal]
      · show qd.conf.c2hBufsz = qu.conf.c2hBufsz
        rw [hequal]
  obtain ⟨r, h⟩ := hrun.invariant (I := fun p => ∃ r, PxInv p r) ⟨0, hinit⟩
    (fun _ _ hi hl => PxInv.step hi hl.1 hl.2)
  rw [h.log, ← bufCnt_eq_zero p.up.s.q]
  constructor
  · intro hs
    by_contra h0
    exact h.behind h0 hs.pidxPend
  · exact h.same

/-! ## Concrete runs -/

/-- The two queues just started, with a ring of CSR size 4 and buffers of a page. -/
def startedPair : Px := { up := { s := startedUp }, dflt := { s := startedRx } }

/-- A read is pending, the device writes an entry, and both queues are serviced. -/
def readEntry (word : ℕ) (payload : List UInt8) : List PxLabel :=
  [.caller (.submit (readReq 4)), .caller (.pend 0), .device (.dma word payload),
    .device (.publish 1), .service 0 newPages (fun _ => 0)]

theorem readEntry_succeeds (word : ℕ) (payload : List UInt8) : ∀ l ∈ readEntry word payload,
    l.Succeeds := by
  intro l hl
  simp only [readEntry, List.mem_cons, List.not_mem_nil, or_false] at hl
  rcases hl with rfl | rfl | rfl | rfl | rfl
  · trivial
  · trivial
  · trivial
  · trivial
  · exact ⟨fun _ => le_rfl, fun i => (newPages_ok i).1⟩

/-- **One packet is enough**: the queue with handler has given back one buffer and one entry
less. -/
theorem packet_holds_back :
    let p := (readEntry (cmplWord true 4) [1, 2, 3, 4]).foldl Px.step startedPair
    Run Px.step (fun p l => PxLegal p l ∧ l.Succeeds) startedPair
        (readEntry (cmplWord true 4) [1, 2, 3, 4]) p ∧
      p.up.s.q.regs.pidx = 2 ∧ p.dflt.s.q.regs.pidx = 0 ∧
      p.up.s.q.regs.wrbCidx = 0 ∧ p.dflt.s.q.regs.wrbCidx = 1 ∧
      p.up.s.q.flq.pidxPend = 0 ∧ p.dflt.s.q.flq.pidxPend = 1 ∧
      p.up.s.q.avail = 1 ∧ p.dflt.s.q.avail = 2 ∧ ¬ SameSpace p.up.s.q p.dflt.s.q := by
  intro p
  have hup : p.up.s.q.flq.pidxPend = 0 := by decide +kernel
  have hdflt : p.dflt.s.q.flq.pidxPend = 1 := by decide +kernel
  refine ⟨(Run.of_admits _ (by decide +kernel)).and (readEntry_succeeds _ _), by decide +kernel,
    by decide +kernel, by decide +kernel, by decide +kernel, hup, hdflt, by decide +kernel,
    by decide +kernel, fun h => ?_⟩
  have heq := h.pidxPend
  rw [hup, hdflt] at heq
  exact absurd heq (by decide)

/-- A packet each. -/
theorem same_space_iff_packet :
    let p := (readEntry (cmplWord true 4) [1, 2, 3, 4]).foldl Px.step startedPair
    SameSpace p.up.s.q p.dflt.s.q ↔
      ∀ c ∈ p.up.s.sent.take p.up.log.length, c.word.testBit 3 = false :=
  same_space_iff startedUp_startedC2h startedRx_startedC2h (by decide +kernel) rfl
    ((Run.of_admits (readEntry (cmplWord true 4) [1, 2, 3, 4]) (by decide +kernel)).and
      (readEntry_succeeds _ _))

end Qdma
