/-
# What a peek reports

`qdma_queue_c2h_peek` gives the three counts the free list keeps.  `pkt_dlen` is raised by
arrivals and lowered by reads, and is right in every state.  `udd_cnt` is raised by arrivals
alone, and nothing writes `pkt_cnt`: `peek_right_iff` says when they are right all the same.
-/
import Qdma.PacketRead
import Qdma.StaleSlots

namespace Qdma

open RingIndex Exec

/-! ## What is outstanding -/

/-- The entries consumed: those up to the last completely read packet, which the CIDX doorbell
gives back. -/
def Rx.consumed (s : Rx) : ℕ :=
  lastSeq 0 ((allBufs s.q.conf.c2hBufsz (s.sent.take s.gone)).take s.readBufs)

/-- The user-data entries not yet consumed; with user data every entry has some. -/
def Rx.uddOutstanding (s : Rx) : ℕ :=
  if s.q.conf.cmplUddEn then s.gone - s.consumed else 0

/-- Entry `k` brought a packet that has buffers not yet read to their end. -/
def Rx.unreadAt (s : Rx) (k : ℕ) : Bool :=
  s.sent[k]?.any (·.word.testBit 3) &&
    decide (s.readBufs < (allBufs s.q.conf.c2hBufsz (s.sent.take (k + 1))).length)

/-- The packets not yet completely read. -/
def Rx.packetsUnread (s : Rx) : ℕ := (List.range s.gone).countP s.unreadAt

/-- The payload bytes received and not yet read. -/
def Rx.bytesUnread (s : Rx) : ℕ :=
  ((s.sent.take s.gone).flatMap (fun c => if c.word.testBit 3 then c.payload else [])).length
    - (copyBytes s.q.copied).length

/-! ## Counting user data -/

/-- The count of user-data entries after `c` entries of the completion ring. -/
def Descq.UddAt (d : Descq) (c : ℕ) : Prop :=
  d.flq.uddCnt = u32 (if d.conf.cmplUddEn then c else 0)

theorem uddCnt_frame : FlqFrame Flq.uddCnt :=
  ⟨fun _ _ _ _ _ => rfl, fun _ _ _ _ _ _ => rfl⟩

theorem pktCnt_frame : FlqRcvFrame Flq.pktCnt :=
  ⟨⟨fun _ _ _ _ _ => rfl, fun _ _ _ _ _ _ => rfl⟩, fun _ _ => rfl⟩

theorem conf_frame : LoopFrame Descq.conf :=
  ⟨⟨fun _ _ _ => rfl, fun _ _ => rfl, fun _ _ => rfl⟩, fun _ _ => rfl, fun _ _ _ _ => rfl⟩

theorem u32_succ (c : ℕ) : u32 (u32 c + 1) = u32 (c + 1) := Nat.mod_add_mod _ _ _

/-- A packet that is kept is counted where user data is on. -/
theorem rcvPktKeep_udd (d : Descq) (pidx last nr len : ℕ) :
    (rcvPktKeep d pidx last nr len).flq.uddCnt
      = if d.conf.cmplUddEn then u32 (d.flq.uddCnt + 1) else d.flq.uddCnt := by
  have hconf := conf_frame.markLoop (ringIdxIncr d.cidxWrb 1 d.conf.rngszWrb) nr pidx d
  have hudd := uddCnt_frame.markLoop (ringIdxIncr d.cidxWrb 1 d.conf.rngszWrb) nr pidx d
  unfold rcvPktKeep
  simp only [Descq.setFlq, hconf]
  rw [← hudd]
  rfl

/-- **A sound entry is counted once**, with or without a packet. -/
theorem rcvEntry_udd {d : Descq} {c : ℕ} (hnone : d.conf.fpDescqC2hPacket = none) (pidx : ℕ)
    (hsound : (d.way pidx).faulty = false) (hu : d.UddAt c) :
    (rcvEntry d ((d.way pidx).entry.withPidx pidx)).1.flq.uddCnt
      = u32 (if d.conf.cmplUddEn then c + 1 else 0) := by
  unfold Descq.UddAt at hu
  generalize hc : (d.way pidx).entry.withPidx pidx = e
  unfold rcvEntry
  cases hused : (d.way pidx).entry.descUsed with
  | true =>
      rw [if_pos (hc ▸ hused)]
      unfold rcvPkt
      simp only [hnone]
      rw [rcvPktKeep_udd]
      simp only [uddCnt_frame.setLastLen, hu]
      cases d.conf.cmplUddEn with
      | true => exact u32_succ c
      | false => rfl
  | false =>
      have hno : ¬ e.descUsed = true := hc ▸ (hused ▸ Bool.false_ne_true)
      have hen : d.conf.cmplUddEn = true := by
        unfold Way.faulty at hsound
        rw [hused, Bool.or_eq_false_iff, Bool.not_false, Bool.true_and,
          Bool.not_eq_false'] at hsound
        exact hsound.2
      rw [if_neg hno, if_pos hen]
      unfold rcvUddOnly
      simp only [hnone, Descq.setFlq, hu, hen, if_true]
      exact u32_succ c

theorem wrbNext_cidx {d : Descq} (h : d.cidxWrb < d.conf.rngszWrb) :
    (wrbNext d).cidxWrb = adv d.conf.rngszWrb d.cidxWrb 1 := by
  unfold wrbNext adv
  by_cases hlast : d.cidxWrb + 1 = d.conf.rngszWrb
  · rw [if_pos hlast, hlast, Nat.mod_self]
  · rw [if_neg hlast, Nat.mod_eq_of_lt (by omega)]

/-- **The loop counts an entry for every place it moves on.** -/
theorem procLoop_udd (n : ℕ) (p : Proc) {c : ℕ} (hnone : p.d.conf.fpDescqC2hPacket = none)
    (hlt : p.d.cidxWrb < p.d.conf.rngszWrb) (hu : p.d.UddAt c) :
    ∃ k ≤ n, (procLoop n p).d.cidxWrb = adv p.d.conf.rngszWrb p.d.cidxWrb k ∧
      (procLoop n p).d.UddAt (c + k) := by
  induction n generalizing p c with
  | zero => exact ⟨0, le_rfl, (adv_zero hlt).symm, hu⟩
  | succ n ih =>
      rw [procLoop_succ]
      rcases procTurn_cases p with ⟨_, heq⟩ | ⟨_, _, heq⟩ | ⟨_, hno, _⟩ | ⟨hgood, _, heq⟩
      · rw [heq]
        exact ⟨0, Nat.zero_le _, (adv_zero hlt).symm, hu⟩
      · rw [heq]
        exact ⟨0, Nat.zero_le _, (adv_zero hlt).symm, hu⟩
      · rw [hnone] at hno
        exact absurd trivial hno
      · rw [heq]
        have hconf := conf_received p
        have hcidx : BufFrame Descq.cidxWrb :=
          ⟨fun _ _ _ => rfl, fun _ _ => rfl, fun _ _ => rfl⟩
        have hrcv := hcidx.rcvEntry p.d ((p.d.way p.pidx).entry.withPidx p.pidx)
        have hrconf := conf_frame.rcvEntry p.d ((p.d.way p.pidx).entry.withPidx p.pidx)
        have hmove : p.received.d.cidxWrb = adv p.d.conf.rngszWrb p.d.cidxWrb 1 := by
          unfold Proc.received
          simp only
          rw [wrbNext_cidx (by rw [hrcv, hrconf]; exact hlt), hrcv, hrconf]
        have hudd : p.received.d.UddAt (c + 1) := by
          unfold Descq.UddAt
          rw [hconf, ← rcvEntry_udd hnone p.pidx hgood.sound hu]
          unfold Proc.received wrbNext
          simp only
          split_ifs <;> rfl
        obtain ⟨k, hk, hto, hat⟩ := ih p.received (by rw [hconf]; exact hnone)
          (by rw [hmove, hconf]; exact adv_lt (by omega)) hudd
        refine ⟨k + 1, Nat.succ_le_succ hk, ?_, ?_⟩
        · rw [hto, hconf, hmove, adv_adv, Nat.add_comm]
        · rwa [Nat.add_assoc, Nat.add_comm 1 k] at hat

/-! ## The invariant -/

/-- **What the counts are**, with `r` entries gone through and `pend` buffers read. -/
structure PeekInv (s : Rx) (r pend : ℕ) : Prop where
  rx : RxInv s r pend
  udd : s.q.UddAt r
  pkt : s.q.flq.pktCnt = 0
  dlen : s.q.flq.pktDlen + (copyBytes s.q.copied).length
    = ((allBufs s.q.conf.c2hBufsz (s.sent.take r)).map (·.bytes.length)).sum

/-- A step of the driver that goes through no entries. -/
theorem PeekInv.driver {s s' : Rx} {r pend pend' : ℕ} (h : PeekInv s r pend)
    (hinv : RxInv s' r pend') (hd : SameDevice s s') (hconf : s'.q.conf = s.q.conf)
    (hudd : s'.q.flq.uddCnt = s.q.flq.uddCnt) (hpkt : s'.q.flq.pktCnt = s.q.flq.pktCnt)
    (hdlen : s'.q.flq.pktDlen + (copyBytes s'.q.copied).length
      = s.q.flq.pktDlen + (copyBytes s.q.copied).length) : PeekInv s' r pend' := by
  constructor
  · exact hinv
  · unfold Descq.UddAt
    rw [hudd, hconf]
    exact h.udd
  · exact hpkt.trans h.pkt
  · rw [hdlen, hconf, hd.sent]
    exact h.dlen

/-- A step that leaves the free list and the copies alone. -/
theorem PeekInv.same {s s' : Rx} {r pend : ℕ} (h : PeekInv s r pend) (hinv : RxInv s' r pend)
    (hd : SameDevice s s') (hconf : s'.q.conf = s.q.conf) (hflq : s'.q.flq = s.q.flq)
    (hcopied : s'.q.copied = s.q.copied) : PeekInv s' r pend :=
  h.driver hinv hd hconf (by rw [hflq]) (by rw [hflq]) (by rw [hflq, hcopied])

/-- **Reading** takes off `pkt_dlen` what it copies. -/
theorem PeekInv.read {s s' : Rx} {r pend : ℕ} (h : PeekInv s r pend) (cb : SgtReqCb)
    (hd : SameDevice s s') (hq : s'.q = (descqStC2hRead s.q cb true true).1) :
    ∃ k, PeekInv s' r (pend + k) := by
  obtain ⟨k, log, hinv, hread⟩ := h.rx.read cb hd hq
  refine ⟨k, h.driver hinv hd hread.same.conf ?_ ?_ ?_⟩
  · rw [hq]
    exact uddCnt_frame.read s.q cb true true
  · rw [hq]
    exact pktCnt_frame.read s.q cb true true
  · have hdlen := hread.dlen
    rw [hread.copied, copyBytes_append, List.length_append]
    omega

theorem PeekInv.submit {s : Rx} {r pend : ℕ} (h : PeekInv s r pend) (req : Request) :
    ∃ k, PeekInv (s.submit req) r (pend + k) := by
  obtain ⟨hd, hq⟩ := submit_rx s req
  split_ifs at hq
  · exact ⟨0, h.same (h.rx.same hd hq) hd (by rw [hq]) (by rw [hq]) (by rw [hq])⟩
  · exact h.read _ hd hq

theorem PeekInv.packetRead {s : Rx} {r pend : ℕ} (h : PeekInv s r pend) (req : Request) :
    ∃ k, PeekInv (s.packetRead req) r (pend + k) := by
  obtain ⟨hd, hq | hq⟩ := packetRead_rx s req
  · exact ⟨0, h.same (h.rx.same hd hq) hd (by rw [hq]) (by rw [hq]) (by rw [hq])⟩
  · exact h.read _ hd hq

theorem PeekInv.pendCb {s : Rx} {r pend : ℕ} (h : PeekInv s r pend) (cb : SgtReqCb) :
    PeekInv (s.pendCb cb) r pend := by
  obtain ⟨hd, _, hq | hq⟩ := pendCb_rx s cb
  · exact h.same (h.rx.pendCb cb) hd (by rw [hq]) (by rw [hq]) (by rw [hq])
  · exact h.same (h.rx.pendCb cb) hd (by rw [hq]; rfl) (by rw [hq]; rfl) (by rw [hq]; rfl)

theorem PeekInv.wait {s : Rx} {r pend : ℕ} (h : PeekInv s r pend) (id : ℕ) :
    PeekInv (s.wait id) r pend := by
  obtain ⟨hd, hq | hq⟩ := wait_rx s id
  · exact h.same (h.rx.wait id) hd (by rw [hq]) (by rw [hq]) (by rw [hq])
  · exact h.same (h.rx.wait id) hd (by rw [hq]; rfl) (by rw [hq]; rfl) (by rw [hq]; rfl)

/-- The device writes to the pages of the free list and to the completion ring. -/
theorem PeekInv.dma {s : Rx} {r pend : ℕ} (h : PeekInv s r pend) {word : ℕ}
    {payload : List UInt8} (hl : RxLegal s (.dma word payload)) :
    PeekInv (s.dma word payload) r pend := by
  have htake : (s.dma word payload).sent.take r = s.sent.take r :=
    List.take_append_of_le_length h.rx.serving.ring.le
  refine ⟨h.rx.dma hl, h.udd, h.pkt, ?_⟩
  rw [htake]
  exact h.dlen

/-- The places a service call may move on are those due. -/
theorem RxInv.entriesOf {s : Rx} {r pend : ℕ} (h : RxInv s r pend) (budget : ℤ) :
    s.q.entriesOf budget = s.due budget ∧ s.due budget < s.q.conf.rngszWrb := by
  obtain ⟨w, hw, hrw, hws⟩ := h.published
  have hlap := h.lt_lap
  have hmax := h.serving.ring.le_max
  have hdelta : ringIdxDelta s.q.descWrb.wbPidx s.q.cidxWrb s.q.conf.rngszWrb = w - r := by
    rw [hw, h.serving.ring.cidx, ringIdxDelta_mod (by omega) hrw (by omega)]
  have hdist : dist s.q.conf.rngszWrb s.q.cidxWrb s.q.descWrb.wbPidx = w - r := by
    rw [hw, h.serving.ring.cidx, dist_mod hrw (by omega)]
  have hle := procBudget_le budget (w - r)
  unfold Descq.entriesOf Rx.due
  rw [hdelta, hdist]
  exact ⟨rfl, by omega⟩

/-- What a service call counts, and how far it moves on. -/
theorem process_udd {d : Descq} {c : ℕ} (hnone : d.conf.fpDescqC2hPacket = none)
    (hlt : d.cidxWrb < d.conf.rngszWrb) (hu : d.UddAt c) (budget : ℤ)
    (fill : ℕ → FillOutcome) :
    ∃ k ≤ d.entriesOf budget,
      (descqProcessCompletionStC2h d budget fill).1.cidxWrb = adv d.conf.rngszWrb d.cidxWrb k ∧
      (descqProcessCompletionStC2h d budget fill).1.UddAt (c + k) := by
  rw [← processWith_procLoop]
  by_cases hserves : d.Serves
  · rw [processWith_serves procLoop hserves budget fill]
    obtain ⟨k, hk, hto, hat⟩ := procLoop_udd (d.entriesOf budget) { d := d, pidx := d.pidx }
      hnone hlt hu
    refine ⟨k, hk, ?_⟩
    generalize procLoop (d.entriesOf budget) { d := d, pidx := d.pidx } = p at hto hat
    -- after the loop nothing is counted and nothing moves on
    have hcidx : ServeFrame Descq.cidxWrb :=
      ⟨⟨⟨fun _ _ _ => rfl, fun _ _ => rfl, fun _ _ => rfl⟩, fun _ _ => rfl, fun _ _ => rfl,
        fun _ _ => rfl⟩, fun _ _ _ _ => rfl, fun _ _ _ => rfl⟩
    have hconf : ServeFrame Descq.conf :=
      ⟨⟨⟨fun _ _ _ => rfl, fun _ _ => rfl, fun _ _ => rfl⟩, fun _ _ => rfl, fun _ _ => rfl,
        fun _ _ => rfl⟩, fun _ _ _ _ => rfl, fun _ _ _ => rfl⟩
    unfold Proc.finish
    cases p.ret with
    | some rv => exact ⟨hto, hat⟩
    | none =>
        refine ⟨(hcidx.procEnd _ _ _ _).trans hto, ?_⟩
        unfold Descq.UddAt at hat ⊢
        simp only
        rw [uddCnt_frame.procEnd (fun _ _ _ => rfl), hconf.procEnd]
        exact hat
  · rw [processWith_idle procLoop hserves budget fill]
    exact ⟨0, Nat.zero_le _, (adv_zero hlt).symm, hu⟩

/-- **Servicing** counts the entries due and their bytes, and takes off what is copied. -/
theorem PeekInv.service {s : Rx} {r pend : ℕ} (h : PeekInv s r pend) (budget : ℤ)
    (fill : ℕ → FillOutcome) :
    ∃ r' pend', PeekInv (s.step (.service budget fill)) r' pend' := by
  have hd : SameDevice s (s.step (.service budget fill)) := ⟨rfl, rfl, rfl, rfl⟩
  rcases h.rx.service budget fill with hq | ⟨k, log, q1, hinv, hpos, hserv, hsame, hdone⟩
  · exact ⟨r, pend, h.same (h.rx.same hd hq) hd (by rw [hq]) (by rw [hq]) (by rw [hq])⟩
  · refine ⟨r + s.due budget, pend + k, hinv, ?_, ?_, ?_⟩
    · have hring := h.rx.serving.ring
      obtain ⟨hent, hdue⟩ := h.rx.entriesOf budget
      obtain ⟨j, hj, hto, hat⟩ := process_udd h.rx.serving.rx.sizes.noHandler
        (by rw [hring.cidx]; exact Nat.mod_lt _ hring.pos) h.udd budget fill
      -- the place after the call tells how many entries were counted
      have hplace : (s.step (.service budget fill)).q.cidxWrb
          = (r + s.due budget) % s.q.conf.rngszWrb := by
        rw [hinv.serving.ring.cidx, hdone.conf.trans hsame.conf]
      have hmod : (r + j) % s.q.conf.rngszWrb = (r + s.due budget) % s.q.conf.rngszWrb := by
        rw [← hplace, ← adv_mod, ← hring.cidx]
        exact hto.symm
      have hjd : j = s.due budget := by
        have h1 := dist_mod (n := s.q.conf.rngszWrb) (show r ≤ r + j by omega) (by omega)
        have h2 := dist_mod (n := s.q.conf.rngszWrb) (show r ≤ r + s.due budget by omega)
          (by omega)
        rw [hmod] at h1
        omega
      rw [hjd] at hat
      exact hat
    · exact (pktCnt_frame.processCompletion (fun _ _ _ => rfl) s.q budget fill).trans h.pkt
    · have hconf := hdone.conf.trans hsame.conf
      have hold := h.rx.serving.rx.dlen
      have hnew := hserv.rx.dlen
      have hdlen := hdone.dlen
      have hsum := h.dlen
      obtain ⟨rest, hrest⟩ := allBufs_isPrefix s.q.conf.c2hBufsz
        (s.sent.take (r + s.due budget)) r
      rw [List.take_take, Nat.min_eq_left (Nat.le_add_right _ _)] at hrest
      rw [hsame.conf, hsame.offset, ← hrest,
        List.drop_append_of_le_length h.rx.serving.rx.fl.pend_le, List.map_append,
        List.sum_append] at hnew
      rw [hconf, hdone.copied, hsame.copied, copyBytes_append, List.length_append]
      show _ = ((allBufs s.q.conf.c2hBufsz (s.sent.take (r + s.due budget))).map
        (·.bytes.length)).sum
      rw [← hrest, List.map_append, List.sum_append]
      omega

/-- **Step lemma.** -/
theorem PeekInv.step {s : Rx} {r pend : ℕ} {l : RxLabel} (h : PeekInv s r pend)
    (hl : RxLegal s l) : ∃ r' pend', PeekInv (s.step l) r' pend' := by
  cases l with
  | submit req =>
      obtain ⟨k, hk⟩ := h.submit req
      exact ⟨r, _, hk⟩
  | pend id =>
      refine ⟨r, pend, ?_⟩
      rcases step_pend_cases s id with heq | ⟨cb, -, -, heq⟩
      · rw [heq]
        exact h
      · rw [heq]
        exact h.pendCb cb
  | wait id => exact ⟨r, pend, h.wait id⟩
  | packetRead req =>
      obtain ⟨k, hk⟩ := h.packetRead req
      exact ⟨r, _, hk⟩
  | service budget fill => exact h.service budget fill
  | dma word payload => exact ⟨r, pend, h.dma hl⟩
  | publish p =>
      exact ⟨r, pend, h.same (h.rx.publish hl.1 hl.2) ⟨rfl, rfl, rfl, rfl⟩ rfl rfl rfl⟩

/-- A queue just started has nothing to count. -/
theorem StartedRx.peekInv {q : Descq} (h : StartedRx q) : PeekInv { q := q } 0 0 := by
  have hinv := h.rxInv
  obtain ⟨-, hcopied⟩ := h.unused
  have hdlen := hinv.serving.rx.dlen_eq
  obtain ⟨d, env, csr, k, hcsr, _, _, _, _, _, hkind, _, hflq, _, _, _, hok, hq⟩ := h
  obtain ⟨slot, sdesc, intrId, heq, _⟩ := startC2h_eq hcsr hkind hok
  rw [heq] at hq
  have hudd : q.flq.uddCnt = d.flq.uddCnt := by rw [hq]; rfl
  have hpkt : q.flq.pktCnt = d.flq.pktCnt := by rw [hq]; rfl
  have hpktDlen : q.flq.pktDlen = d.flq.pktDlen := by rw [hq]; rfl
  refine ⟨hinv, ?_, ?_, ?_⟩
  · unfold Descq.UddAt
    rw [hudd, hflq, ite_self]
    rfl
  · show q.flq.pktCnt = 0
    rw [hpkt, hflq]
  · show q.flq.pktDlen + (copyBytes q.copied).length = 0
    rw [hpktDlen, hcopied, hflq]
    rfl

/-! ## The law -/

/-- **The bytes are right.** -/
theorem PeekInv.bytes {s : Rx} {r pend : ℕ} (h : PeekInv s r pend) :
    s.q.flq.pktDlen = s.bytesUnread := by
  unfold Rx.bytesUnread
  rw [h.rx.counts.1, ← flatMap_allBufs s.q.conf.c2hBufsz, List.length_flatMap]
  have := h.dlen
  omega

/-- **The user data is right just when none of it is consumed**, or exactly 2^32 times so many. -/
theorem PeekInv.udd_iff {s : Rx} {r pend : ℕ} (h : PeekInv s r pend) :
    s.q.flq.uddCnt = s.uddOutstanding ↔
      (s.q.conf.cmplUddEn = true → s.consumed % 2 ^ 32 = 0) := by
  obtain ⟨hgone, hread⟩ := h.rx.counts
  have hcons : s.consumed ≤ r := by
    unfold Rx.consumed
    rw [hgone]
    exact lastSeq_le _ h.rx.serving.ring.seq _ _
  have hnear : r < s.consumed + 65536 := by
    obtain ⟨v, _, hv, hlt⟩ := h.rx.wrbBell
    rw [h.rx.take_pend] at hv
    have hle := h.rx.serving.ring.le
    have hmax := h.rx.serving.ring.le_max
    unfold Rx.consumed
    rw [hgone, hread]
    omega
  have hudd := h.udd
  unfold Descq.UddAt at hudd
  unfold Rx.uddOutstanding
  rw [hudd, hgone]
  cases s.q.conf.cmplUddEn with
  | true =>
      simp only [if_true, forall_const]
      unfold u32
      omega
  | false => exact iff_of_true rfl nofun

/-- **What a peek reports is right** just when no packet is outstanding and no user data has been
consumed. -/
theorem peek_right_iff {q : Descq} (h : StartedRx q) {evs : List RxLabel} {s : Rx}
    (hrun : Run Rx.step RxLegal { q := q } evs s) :
    qdmaQueueC2hPeek s.q = (s.uddOutstanding, s.packetsUnread, s.bytesUnread) ↔
      s.packetsUnread = 0 ∧ (s.q.conf.cmplUddEn = true → s.consumed % 2 ^ 32 = 0) := by
  obtain ⟨r, pend, hinv⟩ := hrun.invariant (I := fun s => ∃ r pend, PeekInv s r pend)
    ⟨0, 0, h.peekInv⟩ (fun _ _ ⟨_, _, hi⟩ hl => hi.step hl)
  unfold qdmaQueueC2hPeek
  rw [Prod.mk.injEq, Prod.mk.injEq, hinv.pkt, hinv.udd_iff]
  constructor
  · rintro ⟨hudd, hpkt, -⟩
    exact ⟨hpkt.symm, hudd⟩
  · rintro ⟨hpkt, hudd⟩
    exact ⟨hudd, hpkt.symm, hinv.bytes⟩

/-- A packet of 10 bytes that is read in two pieces of 4 and 6. -/
theorem peek_right_drained :
    let s := [RxLabel.submit (readReq 4), .pend 0,
      .dma (cmplWord true 10) (List.replicate 10 7), .publish 1, .service 8 (fun _ => .noMem),
      .packetRead (readReq 6)].foldl Rx.step startedRx
    s.gone = 1 ∧
      qdmaQueueC2hPeek s.q = (s.uddOutstanding, s.packetsUnread, s.bytesUnread) :=
  ⟨by decide +kernel, (peek_right_iff startedRx_started (Run.of_admits _ (by decide +kernel))).mpr
    ⟨by decide +kernel, by decide +kernel⟩⟩

/-- A packet of 10 bytes, 4 of them read: no packet is reported. -/
theorem peek_misses_packet :
    ¬ ∀ (q : Descq) (evs : List RxLabel) (s : Rx), StartedRx q →
      Run Rx.step RxLegal { q := q } evs s →
        qdmaQueueC2hPeek s.q = (s.uddOutstanding, s.packetsUnread, s.bytesUnread) := by
  intro h
  have hpeek := h startedRx.q _ sixUnread startedRx_started (Run.of_admits _ (by decide +kernel))
  exact absurd hpeek (by decide +kernel)

end Qdma
