/-
# An ST C2H queue that leaves its ring

The driver takes the buffers of an ST C2H queue for the power of two below the size the device
fills.  On a short ring the buffers it counts for one packet can then come to more than a lap and
one, though the device has found room for the packet in the buffers posted.

`rx_overruns` is a run, on any such queue, in which `rcv_pkt` comes to a slot past the end of the
ring.
-/
import Qdma.RxBufs
import Qdma.RxIndex

namespace Qdma

open RingIndex Exec

/-! ## One entry -/

/-- The first word of an entry for a packet of `len` bytes, in the first colour. -/
theorem cmplInfo_cmplWord {len : ℕ} (hlen : len ≤ 65535) :
    cmplInfo (cmplWord true len) =
      { format := false, color := true, err := false, descUsed := true, len := len
        entry := cmplWord true len } := by
  have hword : cmplWord true len = 2 ^ 4 * len + 10 := by
    show 8 + 2 + 16 * len = _
    omega
  have hlow : ∀ i < 4, (cmplWord true len).testBit i = (10).testBit i := by
    intro i hi
    rw [hword, Nat.testBit_two_pow_mul_add _ (by decide), if_pos hi]
  have hhigh : (cmplWord true len >>> 4) &&& mC2hWbEntryLength = len := by
    rw [hword, Nat.shiftRight_eq_div_pow, show mC2hWbEntryLength = 2 ^ 16 - 1 from rfl,
      Nat.and_two_pow_sub_one_eq_mod]
    omega
  unfold cmplInfo
  rw [hlow 0 (by decide), hlow 1 (by decide), hlow 2 (by decide), hlow 3 (by decide), hhigh]
  rfl

/-- No packet takes more buffers than there are lengths. -/
theorem pktNr_le_max {full len : ℕ} (hf : 0 < full) (hlen : len ≤ 65535) :
    pktNr full len ≤ 65535 := by
  rcases Nat.eq_zero_or_pos len with rfl | h0
  · exact (by decide : 1 ≤ 65535)
  · have hlt := (pktNr_bounds hf h0).1
    have hmul : pktNr full len - 1 ≤ (pktNr full len - 1) * full := Nat.le_mul_of_pos_right _ hf
    omega

/-- A queue with one new entry, for a packet of `len` bytes, that is about to be served. -/
structure Due (q : Descq) (len : ℕ) : Prop where
  err : q.err = false
  color : q.color = true
  busy : (q.conf.fpDescqC2hPacket.isNone && q.pendList.isEmpty && q.workList.isEmpty) = false
  one : ringIdxDelta q.descWrb.wbPidx q.cidxWrb q.conf.rngszWrb = 1
  word : q.descWrb.mem q.descWrbCur = cmplWord true len
  len : len ≤ 65535

/-- The entry. -/
def Descq.dueCmpl (q : Descq) (len : ℕ) : CmplInfo := (cmplInfo (cmplWord true len)).withPidx q.pidx

section One

variable {q : Descq} {len : ℕ}

theorem Due.parse (h : Due q len) : parseCmplEntry q = (q, cmplInfo (cmplWord true len), 0) := by
  unfold parseCmplEntry
  rw [h.word, cmplInfo_cmplWord h.len]
  rfl

theorem Due.rcv (h : Due q len) :
    rcvEntry q (q.dueCmpl len) = rcvPkt q (q.dueCmpl len) len := by
  unfold rcvEntry Descq.dueCmpl
  rw [cmplInfo_cmplWord h.len]
  rfl

/-- A service call receives it, if it is taken. -/
theorem Due.service (h : Due q len) (fill : ℕ → FillOutcome)
    (hrv : (rcvPkt q (q.dueCmpl len) len).2.2 = 0) :
    (descqProcessCompletionStC2h q 0 fill).1 =
      procEnd { d := wrbNext (rcvPkt q (q.dueCmpl len) len).1,
                pidx := (rcvPkt q (q.dueCmpl len) len).2.1.pidx, procCnt := 1 }
        q.descWrb.wbPidx q.flq.pidxPend fill := by
  have hcolor : (cmplInfo (cmplWord true len)).color = q.color := by
    rw [cmplInfo_cmplWord h.len, h.color]
  have hloop : procLoop 1 { d := q, pidx := q.pidx } =
      { d := wrbNext (rcvPkt q (q.dueCmpl len) len).1
        pidx := (rcvPkt q (q.dueCmpl len) len).2.1.pidx, procCnt := 1 } := by
    rw [procLoop]
    simp only [h.parse]
    rw [if_neg (by decide), if_neg (not_not.mpr hcolor)]
    change (if (rcvEntry q (q.dueCmpl len)).2.2 < 0 then _ else procLoop 0
      { d := wrbNext (rcvEntry q (q.dueCmpl len)).1
        pidx := (rcvEntry q (q.dueCmpl len)).2.1.pidx, procCnt := 1 }) = _
    rw [h.rcv, hrv, if_neg (by decide)]
    rfl
  unfold descqProcessCompletionStC2h
  simp only [h.err, h.busy, h.one]
  rw [show procBudget 0 1 = 1 from rfl, hloop]
  rfl

/-- The slot that `rcv_pkt` takes for its last one. -/
theorem Due.lasts (h : Due q len) :
    ringIdxIncr q.pidx (u32Sub (flNr q.flq.pgShift len) 1) q.conf.rngsz ∈ q.lasts 0 := by
  have hcolor : (cmplInfo (cmplWord true len)).color = q.color := by
    rw [cmplInfo_cmplWord h.len, h.color]
  unfold Descq.lasts
  rw [h.err, h.busy, h.one, show procBudget 0 1 = 1 from rfl, procLasts]
  simp only [h.parse]
  rw [if_neg (by decide), if_neg (not_not.mpr hcolor), cmplInfo_cmplWord h.len]
  exact List.mem_append_left _ (List.mem_singleton.mpr rfl)

end One

/-! ## After a service call -/

/-- A refill moves no index of the free list. -/
theorem refill_pidxPend (fill : ℕ → FillOutcome) (recycle : Bool) (count idx : ℕ) (d : Descq) :
    (qdmaFlqRefill fill recycle count idx d).flq.pidxPend = d.flq.pidxPend :=
  FlqPostFrame.refill (g := Flq.pidxPend) ⟨fun _ _ _ => rfl, fun _ _ _ _ => rfl⟩ fill recycle count
    idx d

theorem procRefill_pidxPend (d : Descq) (pend : ℕ) (fill : ℕ → FillOutcome) :
    (procRefill d pend fill).flq.pidxPend = d.flq.pidxPend := by
  unfold procRefill
  simp only
  split_ifs
  · exact refill_pidxPend _ _ _ _ _
  · rfl

/-- The doorbell is rung one slot before the first buffer not read. -/
theorem procRefill_bell {d : Descq} {pend : ℕ} (h : d.flq.pidxPend ≠ pend)
    (fill : ℕ → FillOutcome) : (procRefill d pend fill).regs.pidx =
      ringIdxDecr d.flq.pidxPend 1 d.flq.size := by
  have hsize : ∀ recycle count idx,
      (qdmaFlqRefill fill recycle count idx d).flq.size = d.flq.size := fun _ _ _ =>
    congrArg Prod.snd ((sizes_rcvFrame.toFlqFrame.toPost fun _ _ _ => rfl).refill _ _ _ _ _)
  unfold procRefill
  rw [if_pos h]
  show ringIdxDecr (qdmaFlqRefill _ _ _ _ d).flq.pidxPend 1 (qdmaFlqRefill _ _ _ _ d).flq.size = _
  rw [refill_pidxPend, hsize]

/-- The queue is `b` entries on: all of them are served, their buffers are posted again, and the
next packet is looked for `e` slots behind them. -/
structure Marks (q : Descq) (b e : ℕ) : Prop where
  err : q.err = false
  color : q.color = true
  pidx : q.pidx = b + e
  pend : q.flq.pidxPend = b
  cidx : q.cidxWrb = b
  bell : q.regs.pidx = ringIdxDecr b 1 q.conf.rngsz

/-- What receiving a packet and posting its buffers again leave alone of it. -/
def Descq.marksPart (d : Descq) : QueueConf × Bool × Bool × ℕ × ℕ × List SgtReqCb :=
  (d.conf, d.err, d.color, d.pidx, d.cidxWrb, d.pendList)

theorem marksPart_rxFrame : RxFrame Descq.marksPart :=
  ⟨⟨fun _ _ _ => rfl, fun _ _ => rfl, fun _ _ => rfl⟩, fun _ _ => rfl, fun _ _ => rfl,
    fun _ _ => rfl⟩

/-- The end of a service call that has one packet more in front of the reader. -/
theorem Marks.of_refill {d : Descq} {b e pend : ℕ} (herr : d.err = false)
    (hcolor : d.color = true) (hpidx : d.pidx = b + e) (hpend : d.flq.pidxPend = b)
    (hcidx : d.cidxWrb = b) (hsize : d.flq.size = d.conf.rngsz) (hne : b ≠ pend)
    (fill : ℕ → FillOutcome) (c : ℕ) :
    Marks (descqWrbCidxUpdate (procRefill d pend fill) c) b e := by
  have hpart := marksPart_rxFrame.toPostFrame.procRefill d pend fill
  have hconf : (procRefill d pend fill).conf = d.conf := congrArg Prod.fst hpart
  refine ⟨?_, ?_, ?_, ?_, ?_, ?_⟩
  · exact (congrArg (fun x => x.2.1) hpart).trans herr
  · exact (congrArg (fun x => x.2.2.1) hpart).trans hcolor
  · exact (congrArg (fun x => x.2.2.2.1) hpart).trans hpidx
  · exact (procRefill_pidxPend d pend fill).trans hpend
  · exact (congrArg (fun x => x.2.2.2.2.1) hpart).trans hcidx
  · show (procRefill d pend fill).regs.pidx = ringIdxDecr b 1 (procRefill d pend fill).conf.rngsz
    rw [procRefill_bell (hpend ▸ hne) fill, hpend, hconf, hsize]

theorem wrbNext_of_lt {d : Descq} (h : d.cidxWrb + 1 < d.conf.rngszWrb) :
    wrbNext d =
      { d with cidxWrb := d.cidxWrb + 1, descWrbCur := d.descWrbCur + d.wbEntryLen } :=
  if_neg h.ne

/-- One slot on, where the ring does not end. -/
theorem ringIdxIncr_one {n b : ℕ} (hn : n ≤ 65535) (hb : b + 1 < n) :
    ringIdxIncr b 1 n = b + 1 := by
  rw [ringIdxIncr_eq_adv (by omega) (by omega) (by omega), adv_one (by omega), if_neg (by omega)]

section Round

variable {q : Descq} {len b : ℕ}

/-- **With a packet handler** that takes the packet: its last slot is where the reader is now. -/
theorem Due.handled (h : Due q len) (hon : RxOnRing q)
    (hfp : q.conf.fpDescqC2hPacket = some (fun _ => 0)) (hcidx : q.cidxWrb = b)
    (hpend : q.flq.pidxPend = b) (hb : b + 1 < q.conf.rngszWrb) (hb' : b + 2 < q.conf.rngsz)
    (hlast : ringIdxIncr q.pidx (u32Sub (flNr q.flq.pgShift len) 1) q.conf.rngsz = b + 1)
    (fill : ℕ → FillOutcome) :
    Marks (descqProcessCompletionStC2h q 0 fill).1 (b + 1) 1 := by
  have hnext : ringIdxIncr (b + 1) 1 q.conf.rngsz = b + 1 + 1 := ringIdxIncr_one hon.rngsz hb'
  have hpart := marksPart_rxFrame.toBufFrame.rcvEntry q (q.dueCmpl len)
  have hsize := congrArg Prod.snd (sizes_rcvFrame.rcvEntry q (q.dueCmpl len))
  have htaken : (rcvPkt q (q.dueCmpl len) len).1.flq.pidxPend = b + 1 ∧
      (rcvPkt q (q.dueCmpl len) len).2.1.pidx = b + 1 + 1 ∧
      (rcvPkt q (q.dueCmpl len) len).2.2 = 0 := by
    have hslot : (q.dueCmpl len).pidx = q.pidx := rfl
    unfold rcvPkt
    simp only [hfp, hslot, hlast, hnext]
    exact ⟨rfl, rfl, rfl⟩
  rw [h.rcv] at hpart hsize
  rw [h.service fill htaken.2.2]
  generalize rcvPkt q (q.dueCmpl len) len = got at hpart hsize htaken ⊢
  have hconf : got.1.conf = q.conf := congrArg Prod.fst hpart
  have hgot : got.1.cidxWrb = b := (congrArg (fun x => x.2.2.2.2.1) hpart).trans hcidx
  rw [wrbNext_of_lt (by rw [hgot, hconf]; exact hb)]
  unfold procEnd
  rw [if_pos (show (1 : ℕ) ≠ 0 by decide)]
  simp only [hconf, hfp, Option.isNone_some, Bool.false_eq_true, if_false]
  refine Marks.of_refill ?_ ?_ ?_ ?_ ?_ ?_ ?_ fill _
  · exact (congrArg (fun x => x.2.1) hpart).trans h.err
  · exact (congrArg (fun x => x.2.2.1) hpart).trans h.color
  · exact htaken.2.1
  · exact htaken.1
  · exact congrArg (· + 1) hgot
  · exact hsize.trans hon.size
  · rw [hpend]
    exact Nat.succ_ne_self b

/-- A buffer of length zero is read to its end by any reader. -/
theorem read_empty {d : Descq} {cb : SgtReqCb} (hon : RxOnRing d) (hpidx : d.pidx = b + 1)
    (hpend : d.flq.pidxPend = b) (hlen : (d.flq.sdesc b).len = 0) (hleft : cb.left < 2 ^ 32)
    (hsg : cb.req.sgl.drop cb.sgIdx ≠ []) :
    let got := descqStC2hRead d cb false false
    got.1.flq.pidxPend = b + 1 ∧ got.1.marksPart = d.marksPart ∧ got.2 = (cb, 0) := by
  have hn := hon.rngsz
  have hlt := hon.pidx
  have hcnt : ringIdxDelta d.pidx b d.flq.size = 1 := by
    rw [hpidx, hon.size, ringIdxDelta_eq_dist (by omega) (by omega) (by omega),
      dist_eq (by omega) (by omega), if_pos (by omega)]
    omega
  obtain ⟨sg, sgs, htsg⟩ := List.exists_cons_of_ne_nil hsg
  set r : Rd :=
    { d := d, pidx := b, tsg := cb.req.sgl.drop cb.sgIdx, tsgoff := cb.sgOffset, j := cb.sgIdx }
    with hr
  -- nothing is copied, and the buffer counts as read
  have hloop : readLoop 1 r = r.nextBuf := by
    rw [readLoop, hr, htsg]
    simp only [hlen, copyOut]
    rfl
  have hread : descqStC2hRead d cb false false =
      (readEnd r.nextBuf false false, cb, 0) := by
    have hsame : u32Sub cb.left r.nextBuf.copied = cb.left := u32Sub_of_le hleft (Nat.zero_le _)
    unfold descqStC2hRead
    simp only [hpend, hcnt]
    rw [if_neg (by decide), if_neg (fun h => hsg h.2), ← hr, hloop, hsame]
    rfl
  have hend : (readEnd r.nextBuf false false).flq.pidxPend = b + 1 := by
    have hflq : r.nextBuf.d.flq = d.flq := by
      unfold Rd.nextBuf
      simp only
      split_ifs
      · rfl
      · rfl
    have hmove : (readEnd r.nextBuf false false).flq.pidxPend =
        ringIdxIncr r.nextBuf.d.flq.pidxPend 1 r.nextBuf.d.flq.size := rfl
    rw [hmove, hflq, hpend, hon.size, ringIdxIncr_one hn (by omega)]
  have hmarks := marksPart_rxFrame.read d cb false false
  rw [hread] at hmarks ⊢
  exact ⟨hend, hmarks, rfl⟩

/-- One request waits, with room for a byte at least. -/
def Descq.Reader (q : Descq) : Prop :=
  ∃ cb, q.pendList = [cb] ∧ cb.left ≠ 0 ∧ cb.left < 2 ^ 32 ∧ cb.req.sgl.drop cb.sgIdx ≠ []

/-- Serving it where the next buffer is empty. -/
theorem packetsProc_empty {d : Descq} (hon : RxOnRing d) (hpidx : d.pidx = b + 1)
    (hpend : d.flq.pidxPend = b) (hlen : (d.flq.sdesc b).len = 0) (hrd : d.Reader) :
    let got := qdmaC2hPacketsProcDflt d
    got.flq.pidxPend = b + 1 ∧ got.flq.size = d.flq.size ∧ got.conf = d.conf ∧ got.err = d.err ∧
      got.color = d.color ∧ got.pidx = d.pidx ∧ got.cidxWrb = d.cidxWrb ∧ got.Reader := by
  obtain ⟨cb, hlist, h0, hlt, hsg⟩ := hrd
  obtain ⟨hmove, hmarks, hrv⟩ := read_empty hon hpidx hpend hlen hlt hsg
  have hsize : (descqStC2hRead d cb false false).1.flq.size = d.flq.size :=
    congrArg Prod.snd (sizes_rcvFrame.toFlqFrame.read d cb false false)
  have hproc : qdmaC2hPacketsProcDflt d = (descqStC2hRead d cb false false).1.setCb cb := by
    unfold qdmaC2hPacketsProcDflt
    rw [hlist, packetsProcDflt, if_neg h0]
    simp only [hrv]
    rw [if_neg h0]
    rfl
  rw [hproc]
  generalize descqStC2hRead d cb false false = got at hmove hmarks hsize ⊢
  have hgot : got.1.pendList = [cb] := (congrArg (fun x => x.2.2.2.2.2) hmarks).trans hlist
  refine ⟨hmove, hsize, congrArg Prod.fst hmarks, congrArg (fun x => x.2.1) hmarks,
    congrArg (fun x => x.2.2.1) hmarks, congrArg (fun x => x.2.2.2.1) hmarks,
    congrArg (fun x => x.2.2.2.2.1) hmarks, cb, ?_, h0, hlt, hsg⟩
  show updCb cb got.1.pendList = _
  rw [hgot]
  exact congrArg (fun c => [c]) (if_pos rfl)

/-- What `rcv_pkt` keeps of an empty packet. -/
theorem rcvPkt_empty {d : Descq} {cmpl : CmplInfo} (hon : RxOnRing d)
    (hfp : d.conf.fpDescqC2hPacket = none) (hslot : cmpl.pidx = b) (hb : b + 1 < d.conf.rngsz) :
    (rcvPkt d cmpl 0).2.2 = 0 ∧ (rcvPkt d cmpl 0).2.1.pidx = b + 1 ∧
      (rcvPkt d cmpl 0).1.flq.pidxPend = d.flq.pidxPend ∧
      ((rcvPkt d cmpl 0).1.flq.sdesc b).len = 0 := by
  have hn := hon.rngsz
  have hnr := flNr_zero_sub d.flq.pgShift
  have hlast : ringIdxIncr b 0 d.conf.rngsz = b := by
    rw [ringIdxIncr_eq_adv (by omega) (by omega) (by omega), adv_zero (by omega)]
  have hnext := ringIdxIncr_one hn hb
  have hmark : ∀ (c n i : ℕ) (d : Descq), (markLoop c n i d).flq.pidxPend = d.flq.pidxPend := by
    intro c n
    induction n with
    | zero => exact fun _ _ => rfl
    | succ n ih => exact fun i d => ih _ _
  obtain ⟨-, hsd⟩ := rcvPkt_charge d cmpl 0
  rw [hnr, hslot, hlast] at hsd
  have hlen : ((d.flq.setLastLen b 0).sdesc b).len = 0 := by
    show (Function.update d.flq.sdesc b _ b).len = 0
    rw [Function.update_self]
  refine ⟨?_, ?_, ?_, by rw [hsd, hlen]⟩
  · unfold rcvPkt
    simp only [hfp]
  · unfold rcvPkt
    simp only [hfp, hnr, hslot, hlast, hnext]
    rfl
  · unfold rcvPkt
    simp only [hfp, hnr, hslot, hlast]
    exact hmark _ _ _ _

/-- **Without a handler**: a packet of length zero is read at once. -/
theorem Due.kept (h : Due q 0) (hon : RxOnRing q) (hfp : q.conf.fpDescqC2hPacket = none)
    (hrd : q.Reader) (hpidx : q.pidx = b) (hpend : q.flq.pidxPend = b) (hcidx : q.cidxWrb = b)
    (hb : b + 1 < q.conf.rngszWrb) (hb' : b + 1 < q.conf.rngsz) (fill : ℕ → FillOutcome) :
    Marks (descqProcessCompletionStC2h q 0 fill).1 (b + 1) 0 ∧
      (descqProcessCompletionStC2h q 0 fill).1.Reader := by
  have hsub : u32Sub (flNr q.flq.pgShift 0) 1 ≤ q.conf.rngsz :=
    (flNr_zero_sub _).trans_le (Nat.zero_le _)
  have hslot : (q.dueCmpl 0).pidx = b := hpidx
  obtain ⟨hrv, hnext, hstay, hlen⟩ := rcvPkt_empty hon hfp hslot hb'
  have hrcv := (hon.rcvPkt (show (q.dueCmpl 0).pidx < q.conf.rngsz from hon.pidx) hsub).1
  have hpart := marksPart_rxFrame.toBufFrame.rcvEntry q (q.dueCmpl 0)
  rw [h.rcv] at hpart
  rw [h.service fill hrv]
  generalize rcvPkt q (q.dueCmpl 0) 0 = got at hpart hrv hnext hstay hlen hrcv ⊢
  have hconf : got.1.conf = q.conf := congrArg Prod.fst hpart
  have hgot : got.1.cidxWrb = b := (congrArg (fun x => x.2.2.2.2.1) hpart).trans hcidx
  have hwrb := wrbNext_of_lt (d := got.1) (by rw [hgot, hconf]; exact hb)
  -- the queue as the waiting request finds it
  set d : Descq := { wrbNext got.1 with pidxWrb := q.descWrb.wbPidx, pidx := got.2.1.pidx } with hd
  have hplain : (wrbNext got.1).conf.fpDescqC2hPacket = none := by
    rw [conf_loopFrame.wrbNext, hconf]
    exact hfp
  have hdon : RxOnRing d := by
    refine hrcv.wrbNext.indices ?_ ?_
    · rw [conf_loopFrame.wrbNext, hconf]
      exact hon.wbPidx
    · rw [conf_loopFrame.wrbNext, hconf, hnext]
      exact hb'
  obtain ⟨cb, hlist, hcb⟩ := hrd
  have hdrd : d.Reader := by
    refine ⟨cb, ?_, hcb⟩
    rw [hd, hwrb]
    exact (congrArg (fun x => x.2.2.2.2.2) hpart).trans hlist
  have hdflq : d.flq = got.1.flq := by rw [hd, hwrb]
  obtain ⟨hmove, hsize, hkconf, hkerr, hkcolor, hkpidx, hkcidx, hkrd⟩ :=
    packetsProc_empty hdon hnext (by rw [hdflq, hstay, hpend]) (by rw [hdflq]; exact hlen) hdrd
  unfold procEnd
  rw [if_pos (show (1 : ℕ) ≠ 0 by decide)]
  simp only [hplain, Option.isNone_none, if_true, ← hd]
  generalize qdmaC2hPacketsProcDflt d = k at hmove hsize hkconf hkerr hkcolor hkpidx hkcidx hkrd ⊢
  refine ⟨Marks.of_refill ?_ ?_ ?_ hmove ?_ ?_ ?_ fill _, ?_⟩
  · rw [hkerr, hd, hwrb]
    exact (congrArg (fun x => x.2.1) hpart).trans h.err
  · rw [hkcolor, hd, hwrb]
    exact (congrArg (fun x => x.2.2.1) hpart).trans h.color
  · rw [hkpidx]
    exact hnext
  · rw [hkcidx, hd, hwrb]
    exact congrArg (· + 1) hgot
  · rw [hsize, hkconf]
    exact hdon.size
  · rw [hpend]
    exact Nat.succ_ne_self b
  · obtain ⟨cb', hlist', hcb'⟩ := hkrd
    have hkeep := marksPart_rxFrame.toPostFrame.procRefill k q.flq.pidxPend fill
    exact ⟨cb', (congrArg (fun x => x.2.2.2.2.2) hkeep).trans hlist', hcb'⟩

end Round

/-! ## Rounds -/

/-- The sizes of a queue that is running, and whether it has a packet handler. -/
structure Shape (q : Descq) (n bufsz k : ℕ) (up : Bool) : Prop where
  rngsz : q.conf.rngsz = n
  rngszWrb : q.conf.rngszWrb = n
  bufsz : q.conf.c2hBufsz = bufsz
  shift : q.flq.pgShift = k
  size : q.flq.size = n
  handler : q.conf.fpDescqC2hPacket.isSome = up

/-- The queue is abreast of its device after `b` entries, `e` slots in front of it; without a
handler a request waits. -/
structure Abreast (s : Rx) (n bufsz k : ℕ) (up : Bool) (b e : ℕ) : Prop where
  shape : Shape s.q n bufsz k up
  ring : RxOnRing s.q
  marks : Marks s.q b e
  bufPidx : s.bufPidx = b
  wrbPidx : s.wrbPidx = b
  reader : up = false → s.q.Reader

/-- The device writes a packet of `len` bytes and its entry, and publishes it. -/
def Rx.wrote (s : Rx) (len : ℕ) : Rx :=
  (s.step (.dma (cmplWord true len) (List.replicate len 0))).step
    (.publish (adv s.q.conf.rngszWrb s.wrbPidx 1))

/-- Of the queue this changes what the buffers hold and the completion ring. -/
theorem Rx.wrote_q (s : Rx) (len : ℕ) :
    ∃ f w, (s.wrote len).q = { s.q with flq := f, descWrb := w } ∧
      f.pidxPend = s.q.flq.pidxPend ∧ w.wbPidx = adv s.q.conf.rngszWrb s.wrbPidx 1 ∧
      w.mem = Function.update s.q.descWrb.mem (s.wrbPidx * s.q.wbEntryLen) (cmplWord true len) :=
  ⟨(s.wrote len).q.flq, (s.wrote len).q.descWrb, rfl, rfl, rfl, rfl⟩

section Rounds

variable {s : Rx} {n bufsz k b e len : ℕ} {up : Bool}

theorem Abreast.bounds (h : Abreast s n bufsz k up b e) : b < n ∧ n ≤ 65535 := by
  rw [← h.shape.rngsz, ← h.marks.cidx]
  refine ⟨?_, h.ring.rngsz⟩
  rw [h.shape.rngsz, ← h.shape.rngszWrb]
  exact h.ring.cidxWrb

theorem Abreast.wrote_marks (h : Abreast s n bufsz k up b e) : Marks (s.wrote len).q b e := by
  obtain ⟨f, w, hq, hf, -⟩ := s.wrote_q len
  rw [hq]
  exact ⟨h.marks.err, h.marks.color, h.marks.pidx, hf.trans h.marks.pend, h.marks.cidx,
    h.marks.bell⟩

theorem Abreast.wrote_reader (h : Abreast s n bufsz k false b e) : (s.wrote len).q.Reader := by
  obtain ⟨f, w, hq, -⟩ := s.wrote_q len
  rw [hq]
  exact h.reader rfl

/-- What the device has written is due. -/
theorem Abreast.due (h : Abreast s n bufsz k up b e) (hn : 2 ≤ n) (hlen : len ≤ 65535) :
    Due (s.wrote len).q len := by
  obtain ⟨hb, hmax⟩ := h.bounds
  obtain ⟨f, w, hq, -, hwb, hmem⟩ := s.wrote_q len
  rw [hq]
  refine ⟨h.marks.err, h.marks.color, ?_, ?_, ?_, hlen⟩
  · show (s.q.conf.fpDescqC2hPacket.isNone && s.q.pendList.isEmpty && s.q.workList.isEmpty) = false
    cases up with
    | true =>
        obtain ⟨fp, hfp⟩ := Option.isSome_iff_exists.mp h.shape.handler
        rw [hfp]
        rfl
    | false =>
        obtain ⟨cb, hlist, -⟩ := h.reader rfl
        rw [hlist, List.isEmpty_cons, Bool.and_false, Bool.false_and]
  · show ringIdxDelta w.wbPidx s.q.cidxWrb s.q.conf.rngszWrb = 1
    rw [hwb, h.shape.rngszWrb, h.wrbPidx, h.marks.cidx,
      ringIdxDelta_eq_dist (by omega) hb (adv_lt (by omega)), dist_adv hb (by omega)]
  · show w.mem s.q.descWrbCur = _
    rw [hmem, h.ring.cur, h.marks.cidx, h.wrbPidx, Function.update_self]

/-- It may write as much as the ring has free. -/
theorem Abreast.run_wrote {c : Ix} (h : Abreast c.s n bufsz k up b e) (hn : 2 ≤ n)
    (hlen : len ≤ 65535) (hroom : pktNr bufsz len < n) :
    ∃ evs, Run Ix.step IxLegal c evs { c with s := c.s.wrote len } := by
  obtain ⟨hb, hmax⟩ := h.bounds
  have hposted : c.s.q.PostedFor (cmplWord true len) c.s.bufPidx := by
    intro _
    rw [cmplInfo_cmplWord hlen, h.shape.bufsz, h.shape.rngsz, h.bufPidx, h.marks.bell,
      h.shape.rngsz, ringIdxDecr_one_eq_adv (by omega) hb, dist_adv hb (by omega)]
    exact Nat.le_sub_one_of_lt hroom
  have hpub : adv c.s.q.conf.rngszWrb c.s.wrbPidx 1 < c.s.q.conf.rngszWrb := by
    rw [h.shape.rngszWrb]
    exact adv_lt (by omega)
  exact ⟨_, (Run.one (e := CxLabel.rx (.dma (cmplWord true len) (List.replicate len 0)))
    hposted).snoc (e := CxLabel.rx (.publish _)) hpub⟩

/-- The indices stay on the ring if the driver's count of the packet does. -/
theorem Abreast.wrote_ring (h : Abreast s n bufsz k up b e) (hn : 2 ≤ n) (hlen : len ≤ 65535)
    (hfit : u32Sub (flNr k len) 1 ≤ n) : RxOnRing (s.wrote len).q := by
  have hfits : s.q.Fits (cmplWord true len) := by
    unfold Descq.Fits
    rw [cmplInfo_cmplWord hlen, h.shape.shift, h.shape.rngsz]
    exact hfit
  have hpub : adv s.q.conf.rngszWrb s.wrbPidx 1 < s.q.conf.rngszWrb := by
    rw [h.shape.rngszWrb]
    exact adv_lt (by omega)
  exact rxOnRing_step (rxOnRing_step h.ring (l := .dma _ _) hfits) (l := .publish _) hpub

/-- A packet in one buffer of the device takes it one slot on. -/
theorem Abreast.wrote_next (h : Abreast s n bufsz k up b e) (hsz : 0 < bufsz)
    (hone : pktNr bufsz len = 1) (hlen : len ≤ 65535) (hb : b + 1 < n) :
    (s.wrote len).bufPidx = b + 1 ∧ (s.wrote len).wrbPidx = b + 1 := by
  have hnext : adv n b 1 = b + 1 := by rw [adv_one (by omega), if_neg (by omega)]
  have hused : (cmplWord true len).testBit 3 = true :=
    congrArg CmplInfo.descUsed (cmplInfo_cmplWord hlen)
  constructor
  · show adv s.q.conf.rngsz s.bufPidx (List.length (Cmpl.bufs _ _)) = _
    unfold Cmpl.bufs
    rw [if_pos hused, h.shape.bufsz, length_packetBufs hsz, List.length_replicate, hone,
      h.shape.rngsz, h.bufPidx, hnext]
  · show adv s.q.conf.rngszWrb s.wrbPidx 1 = _
    rw [h.shape.rngszWrb, h.wrbPidx, hnext]

theorem Shape.step {s : Rx} (h : Shape s.q n bufsz k up) (l : RxLabel) :
    Shape (s.step l).q n bufsz k up := by
  have hsizes := bufSizes_step s l
  have hconf : (s.step l).q.conf = s.q.conf := congrArg Prod.fst hsizes
  have hshift : (s.step l).q.flq.pgShift = s.q.flq.pgShift := congrArg (fun x => x.2.1) hsizes
  have hsize : (s.step l).q.flq.size = s.q.flq.size := congrArg (fun x => x.2.2) hsizes
  refine ⟨?_, ?_, ?_, hshift.trans h.shift, hsize.trans h.size, ?_⟩
  · rw [hconf]
    exact h.rngsz
  · rw [hconf]
    exact h.rngszWrb
  · rw [hconf]
    exact h.bufsz
  · rw [hconf]
    exact h.handler

/-- **A round without a handler**, with an empty packet. -/
theorem Abreast.kept {c : Ix} (h : Abreast c.s n bufsz k false b 0) (hsz : 0 < bufsz)
    (hb : b + 1 < n) :
    ∃ evs c', Run Ix.step IxLegal c evs c' ∧ Abreast c'.s n bufsz k false (b + 1) 0 := by
  have hone : pktNr bufsz 0 = 1 := rfl
  have hlen : 0 ≤ 65535 := by omega
  obtain ⟨evs, hrun⟩ := h.run_wrote (by omega) hlen (by omega)
  have hdue := h.due (by omega) hlen
  have hon := h.wrote_ring (by omega) hlen
    ((flNr_zero_sub k).trans_le (Nat.zero_le n))
  obtain ⟨hbuf, hwrb⟩ := h.wrote_next hsz hone (by omega) hb
  have hshape : Shape (c.s.wrote 0).q n bufsz k false := (h.shape.step _).step _
  have hfp : (c.s.wrote 0).q.conf.fpDescqC2hPacket = none :=
    Option.not_isSome_iff_eq_none.mp (by rw [hshape.handler]; decide)
  have hmarks : Marks (c.s.wrote 0).q b 0 := h.wrote_marks
  obtain ⟨hmarks, hreader⟩ := hdue.kept hon hfp h.wrote_reader hmarks.pidx hmarks.pend hmarks.cidx
    (hshape.rngszWrb ▸ hb) (hshape.rngsz ▸ hb) (fun _ => .noMem)
  refine ⟨_, _, hrun.snoc (e := CxLabel.rx (.service 0 (fun _ => .noMem))) trivial, ?_⟩
  exact ⟨hshape.step (.service 0 _), hon.processCompletion _ _, hmarks, hbuf, hwrb,
    fun _ => hreader⟩

/-- **A round with one**, whose packet ends one slot on from where the last one ended. -/
theorem Abreast.handled {c : Ix} (h : Abreast c.s n bufsz k true b e) (hsz : 0 < bufsz)
    (hlen : len ≤ 65535) (hone : pktNr bufsz len = 1) (hfit : u32Sub (flNr k len) 1 ≤ n)
    (hlast : ringIdxIncr (b + e) (u32Sub (flNr k len) 1) n = b + 1) (hb : b + 2 < n) :
    ∃ evs c', Run Ix.step IxLegal c evs c' ∧ Abreast c'.s n bufsz k true (b + 1) 1 := by
  obtain ⟨evs, hrun⟩ := h.run_wrote (by omega) hlen (by omega)
  have hdue := h.due (by omega) hlen
  have hon := h.wrote_ring (by omega) hlen hfit
  obtain ⟨hbuf, hwrb⟩ := h.wrote_next hsz hone hlen (by omega)
  have hshape : Shape (c.s.wrote len).q n bufsz k true := (h.shape.step _).step _
  have hmarks : Marks (c.s.wrote len).q b e := h.wrote_marks
  set s' : Rx := (c.s.wrote len).withHandler (fun _ => 0) with hs'
  have hshape' : Shape s'.q n bufsz k true := { hshape with handler := rfl }
  have hon' : RxOnRing s'.q := { hon with }
  have hdue' : Due s'.q len := { hdue with busy := rfl }
  have hslot : ringIdxIncr s'.q.pidx (u32Sub (flNr s'.q.flq.pgShift len) 1) s'.q.conf.rngsz
      = b + 1 := by
    rw [hshape'.shift, hshape'.rngsz, show s'.q.pidx = b + e from hmarks.pidx]
    exact hlast
  have hmarks := hdue'.handled hon' rfl hmarks.cidx hmarks.pend
    (hshape'.rngszWrb ▸ (by omega : b + 1 < n)) (hshape'.rngsz ▸ hb) hslot (fun _ => .noMem)
  refine ⟨_, _, hrun.snoc (e := CxLabel.upper 0 (fun _ => .noMem) (fun _ => 0)) hshape.handler, ?_⟩
  exact ⟨hshape'.step (.service 0 _), hon'.processCompletion _ _, hmarks, hbuf, hwrb, nofun⟩

/-- Rounds without a handler. -/
theorem Abreast.kept_run {c : Ix} (h : Abreast c.s n bufsz k false b 0) (hsz : 0 < bufsz) (m : ℕ)
    (hb : b + m < n) :
    ∃ evs c', Run Ix.step IxLegal c evs c' ∧ Abreast c'.s n bufsz k false (b + m) 0 := by
  induction m with
  | zero => exact ⟨[], c, Run.nil, h⟩
  | succ m ih =>
      obtain ⟨evs, c₁, hrun, h₁⟩ := ih (by omega)
      obtain ⟨evs', c₂, hrun', h₂⟩ := h₁.kept hsz (by omega)
      exact ⟨_, c₂, hrun.append hrun', h₂⟩

/-- Rounds with one. -/
theorem Abreast.handled_run {c : Ix} (h : Abreast c.s n bufsz k true b 1) (hsz : 0 < bufsz)
    (m : ℕ) (hb : b + m + 1 < n) :
    ∃ evs c', Run Ix.step IxLegal c evs c' ∧ Abreast c'.s n bufsz k true (b + m) 1 := by
  have hmax := h.bounds.2
  have hzero := flNr_zero_sub k
  induction m with
  | zero => exact ⟨[], c, Run.nil, h⟩
  | succ m ih =>
      obtain ⟨evs, c₁, hrun, h₁⟩ := ih (by omega)
      obtain ⟨evs', c₂, hrun', h₂⟩ := h₁.handled hsz (Nat.zero_le 65535) rfl (by omega)
        (by rw [hzero, ringIdxIncr_eq_adv (by omega) (by omega) (by omega), adv_zero (by omega)])
        (by omega)
      exact ⟨_, c₂, hrun.append hrun', h₂⟩

/-- **The packet that is too long**: it fits the buffers posted, but not the driver's count. -/
theorem Abreast.overrun {c : Ix} (h : Abreast c.s n bufsz k up b e) (hbe : b + e + 1 = n)
    (hn : 2 ≤ n) (hlen : len ≤ 65535) (hroom : pktNr bufsz len < n) (hlap : n + 2 ≤ flNr k len) :
    ∃ evs c', Run Ix.step IxLegal c evs c' ∧ ∃ i ∈ c'.used, c'.s.q.flq.size ≤ i := by
  obtain ⟨evs, hrun⟩ := h.run_wrote hn hlen hroom
  have hdue := h.due hn hlen
  have hshape : Shape (c.s.wrote len).q n bufsz k up := (h.shape.step _).step _
  have hmax := h.bounds.2
  have hslot : n ≤ ringIdxIncr (b + e) (u32Sub (flNr k len) 1) n := by
    have hk := h.ring.shift
    rw [h.shape.shift] at hk
    have hnr : flNr k len ≤ 65535 := flNr_eq hk hlen ▸ pktNr_le_max (Nat.two_pow_pos k) hlen
    rw [u32Sub_of_le (by omega) (by omega)]
    unfold ringIdxIncr
    simp only
    rw [u32_of_lt (by omega), if_pos (by omega), u32Sub_of_le (by omega) (by omega)]
    omega
  have hpidx : (c.s.wrote len).q.pidx = b + e := h.wrote_marks.pidx
  cases up with
  | true =>
      have hup : Shape ((c.s.wrote len).withHandler (fun _ => 0)).q n bufsz k true :=
        { hshape with handler := rfl }
      have hsize := (hup.step (.service 0 (fun _ => .noMem))).size
      refine ⟨_, _, hrun.snoc (e := CxLabel.upper 0 (fun _ => .noMem) (fun _ => 0)) hshape.handler,
        _, List.mem_append_right _ (Due.lasts (q := ((c.s.wrote len).withHandler (fun _ => 0)).q)
          { hdue with busy := rfl }), ?_⟩
      refine hsize.trans_le ?_
      show n ≤ ringIdxIncr (c.s.wrote len).q.pidx
        (u32Sub (flNr (c.s.wrote len).q.flq.pgShift len) 1) (c.s.wrote len).q.conf.rngsz
      rwa [hpidx, hshape.shift, hshape.rngsz]
  | false =>
      have hsize := (hshape.step (.service 0 (fun _ => .noMem))).size
      refine ⟨_, _, hrun.snoc (e := CxLabel.rx (.service 0 (fun _ => .noMem))) trivial,
        _, List.mem_append_right _ hdue.lasts, ?_⟩
      refine hsize.trans_le ?_
      rwa [hpidx, hshape.shift, hshape.rngsz]

end Rounds

/-! ## The run -/

/-- A queue on which nothing has been received yet, and no request waits. -/
structure Idle (q : Descq) : Prop where
  marks : Marks q 0 0
  online : q.online = true
  pendList : q.pendList = []

section Start

variable {q : Descq} {n bufsz k len : ℕ} {up : Bool}

/-- With a handler it is abreast of its device; without, it is once a read waits. -/
theorem Idle.abreast (h : Idle q) (hshape : Shape q n bufsz k up) (hon : RxOnRing q) :
    ∃ evs c, Run Ix.step IxLegal { s := { q := q } } evs c ∧ Abreast c.s n bufsz k up 0 0 := by
  cases up with
  | true => exact ⟨[], _, Run.nil, hshape, hon, h.marks, rfl, rfl, nofun⟩
  | false =>
      have hnone : ringIdxDelta q.pidx q.flq.pidxPend q.flq.size = 0 := by
        rw [show q.pidx = 0 from h.marks.pidx, h.marks.pend]
        rfl
      set cb := (readReq 1).newC2hCb 0 with hcb
      have hread : descqStC2hRead q cb true true = (q, cb, 0) := by
        unfold descqStC2hRead
        simp only [hnone]
        rfl
      have hsubmit : Rx.step { q := q } (.submit (readReq 1)) =
          { q := q, nreq := 1, parked := [cb] } := by
        show Rx.submit { q := q } (readReq 1) = _
        unfold Rx.submit submitStC2hRead
        simp only [← hcb, hread]
        rfl
      have hpend : Rx.step { q := q, nreq := 1, parked := [cb] } (.pend 0) =
          { q := descqWrbCidxUpdate { q with pendList := [cb] } q.cidxWrbPend, nreq := 1
            waiters := [0] } := by
        show Rx.pendCb { q := q, nreq := 1, parked := [cb] } cb = _
        unfold Rx.pendCb submitStC2hPend
        simp only [h.online, h.pendList]
        rfl
      refine ⟨_, _, (Run.one (e := CxLabel.rx (.submit (readReq 1))) trivial).snoc
        (e := CxLabel.rx (.pend 0)) trivial, ?_⟩
      show Abreast (Rx.step (Rx.step { q := q } (.submit (readReq 1))) (.pend 0)) n bufsz k false
        0 0
      rw [hsubmit, hpend]
      exact ⟨⟨hshape.rngsz, hshape.rngszWrb, hshape.bufsz, hshape.shift, hshape.size,
          hshape.handler⟩,
        (hon.lists q.workList [cb] q.finished).cidxBell hon.wrbPend,
        ⟨h.marks.err, h.marks.color, h.marks.pidx, h.marks.pend, h.marks.cidx, h.marks.bell⟩,
        rfl, rfl, fun _ => ⟨cb, rfl, by decide, by decide, by decide⟩⟩

/-- **A queue that leaves its ring**: on any whose device can put into the buffers of a ring but
one a packet that the driver counts as more than a lap and one, in some run. -/
theorem rx_overruns (h : Idle q) (hshape : Shape q n bufsz k up) (hon : RxOnRing q) (hn : 3 ≤ n)
    (hlen : len ≤ 65535) (hroom : pktNr bufsz len < n) (hlap : n + 2 ≤ flNr k len)
    (hbuf : 2 ^ k < bufsz) (hk : 2 ^ k < 65535) :
    ∃ evs c, Run Ix.step IxLegal { s := { q := q } } evs c ∧
      ∃ i ∈ c.used, c.s.q.flq.size ≤ i := by
  have hpos : 0 < 2 ^ k := Nat.two_pow_pos k
  have hsz : 0 < bufsz := by omega
  have hk31 := hon.shift
  rw [hshape.shift] at hk31
  obtain ⟨evs, c, hrun, habr⟩ := h.abreast hshape hon
  cases up with
  | false =>
      -- as many empty packets as lead to the last slot
      obtain ⟨evs₁, c₁, hrun₁, habr₁⟩ := habr.kept_run hsz (n - 1) (by omega)
      obtain ⟨evs₂, c₂, hrun₂, hover⟩ := habr₁.overrun (by omega) (by omega) hlen hroom hlap
      exact ⟨_, c₂, (hrun.append hrun₁).append hrun₂, hover⟩
  | true =>
      -- one that the driver counts twice brings it a slot in front of the device
      have htwo : flNr k (2 ^ k + 1) = 2 := by
        rw [flNr_eq hk31 (by omega)]
        unfold pktNr
        rw [if_neg (by omega), show 2 ^ k + 1 + 2 ^ k - 1 = 2 * 2 ^ k by omega,
          Nat.mul_div_cancel _ hpos]
      have hone : pktNr bufsz (2 ^ k + 1) = 1 := by
        unfold pktNr
        rw [if_neg (by omega)]
        exact Nat.div_eq_of_lt_le (by omega) (by omega)
      have hstep : ringIdxIncr (0 + 0) (u32Sub 2 1) n = 0 + 1 :=
        ringIdxIncr_one (hshape.rngsz ▸ hon.rngsz) (by omega)
      have hshort : 2 ^ k + 1 ≤ 65535 := by omega
      obtain ⟨evs₁, c₁, hrun₁, habr₁⟩ := habr.handled hsz hshort hone
        (by rw [htwo, show u32Sub 2 1 = 1 by decide]; omega) (by rw [htwo]; exact hstep) (by omega)
      obtain ⟨evs₂, c₂, hrun₂, habr₂⟩ := habr₁.handled_run hsz (n - 3) (by omega)
      obtain ⟨evs₃, c₃, hrun₃, hover⟩ := habr₂.overrun (by omega) (by omega) hlen hroom hlap
      exact ⟨_, c₃, ((hrun.append hrun₁).append hrun₂).append hrun₃, hover⟩

end Start

end Qdma
