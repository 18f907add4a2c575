/-
# The indices of an ST C2H queue

Which slots of its rings an ST C2H queue with a device points to.  `RxOnRing` says that every index
of the queue, each doorbell and the completion index kept with each buffer lies on its ring; every
function of the receive side keeps it, with a packet handler or without.

What `rcv_pkt` counts for a packet must not come to more than a lap and one.  A device that writes
packets only to the buffers posted sees to that as long as its buffers and the driver's agree well
enough (`RxAgree`); `ixInv_run` is the law over runs, with the slots `rcv_pkt` itself uses.
-/
import Qdma.Completions
import Qdma.RxFrame

namespace Qdma

open RingIndex Exec

/-! ## The law -/

/-- `rcv_pkt` advances by at most the size of the ring for the entry `word`. -/
def Descq.Fits (q : Descq) (word : ℕ) : Prop :=
  u32Sub (flNr q.flq.pgShift (cmplInfo word).len) 1 ≤ q.conf.rngsz

/-- **The driver's count of a packet** comes to at most the ring and one, if the device has put the
packet into fewer of its own buffers than the ring has. -/
def RxAgree (q : Descq) : Prop :=
  ∀ len ≤ 65535, pktNr q.conf.c2hBufsz len < q.conf.rngsz →
    u32Sub (flNr q.flq.pgShift len) 1 ≤ q.conf.rngsz

/-- **Every index is on its ring.** -/
structure RxOnRing (q : Descq) : Prop where
  rngsz : q.conf.rngsz ≤ 65535
  rngszWrb : q.conf.rngszWrb ≤ 65535
  size : q.flq.size = q.conf.rngsz
  pidx : q.pidx < q.conf.rngsz
  pend : q.flq.pidxPend < q.conf.rngsz
  bell : q.regs.pidx < q.conf.rngsz
  cidxWrb : q.cidxWrb < q.conf.rngszWrb
  pidxWrb : q.pidxWrb < q.conf.rngszWrb
  wrbPend : q.cidxWrbPend < q.conf.rngszWrb
  wrbBell : q.regs.wrbCidx < q.conf.rngszWrb
  cur : q.descWrbCur = q.cidxWrb * q.wbEntryLen
  info : ∀ i, (q.flq.sdescInfo i).cidx < q.conf.rngszWrb
  wbPidx : q.descWrb.wbPidx < q.conf.rngszWrb
  fits : ∀ o, q.Fits (q.descWrb.mem o)
  shift : q.flq.pgShift ≤ 31
  entryLen : q.wbEntryLen ≤ 32

/-- An index that moves on stays on a ring of 16 bits. -/
theorem ringIdxIncr_lt {n i k : ℕ} (hn : n ≤ 65535) (hi : i < n) (hk : k ≤ n) :
    ringIdxIncr i k n < n := by
  rw [ringIdxIncr_eq_adv (by omega) hi hk]
  exact adv_lt (by omega)

theorem ringIdxDecr_one_lt {n i : ℕ} (hn : n ≤ 65535) (hi : i < n) :
    ringIdxDecr i 1 n < n := by
  rw [ringIdxDecr_one_eq_adv (by omega) hi]
  exact adv_lt (by omega)

/-! ## Parts of a queue -/

section Parts

variable {q : Descq}

theorem RxOnRing.copied (h : RxOnRing q) (c : List Copy) : RxOnRing { q with copied := c } :=
  { h with }

theorem RxOnRing.slots (h : RxOnRing q) (r : DescRing) : RxOnRing { q with desc := r } :=
  { h with }

theorem RxOnRing.flags (h : RxOnRing q) (err warned : Bool) :
    RxOnRing { q with err := err, warned := warned } :=
  { h with }

theorem RxOnRing.lists (h : RxOnRing q) (work pend : List SgtReqCb) (finished : List Done) :
    RxOnRing { q with workList := work, pendList := pend, finished := finished } :=
  { h with }

theorem RxOnRing.cidxPend (h : RxOnRing q) {v : ℕ} (hv : v < q.conf.rngszWrb) :
    RxOnRing { q with cidxWrbPend := v } :=
  { h with wrbPend := hv }

theorem RxOnRing.indices (h : RxOnRing q) {w p : ℕ} (hw : w < q.conf.rngszWrb)
    (hp : p < q.conf.rngsz) : RxOnRing { q with pidxWrb := w, pidx := p } :=
  { h with pidx := hp, pidxWrb := hw }

/-- A doorbell of the descriptor ring. -/
theorem RxOnRing.pidxBell (h : RxOnRing q) {p : ℕ} (hp : p < q.conf.rngsz) :
    RxOnRing (descqC2hPidxUpdate q p) :=
  { h with bell := hp }

/-- A doorbell of the completion ring. -/
theorem RxOnRing.cidxBell (h : RxOnRing q) {c : ℕ} (hc : c < q.conf.rngszWrb) :
    RxOnRing (descqWrbCidxUpdate q c) :=
  { h with wrbBell := hc }

/-- The free list, as long as it keeps its size and its buffers their completion indices. -/
theorem RxOnRing.freeList (h : RxOnRing q) {flq : Flq} (avail : ℕ) (hsize : flq.size = q.flq.size)
    (hshift : flq.pgShift = q.flq.pgShift) (hpend : flq.pidxPend < q.conf.rngsz)
    (hinfo : ∀ i, (flq.sdescInfo i).cidx < q.conf.rngszWrb) :
    RxOnRing { q with flq := flq, avail := avail } := by
  refine
    { h with
      size := hsize.trans h.size
      pend := hpend
      info := hinfo
      fits := fun o => ?_
      shift := hshift.trans_le h.shift }
  unfold Descq.Fits
  rw [hshift]
  exact h.fits o

/-- One buffer's state, with a completion index on the ring. -/
theorem RxOnRing.setInfo (h : RxOnRing q) (avail i : ℕ) {s : SdescInfo}
    (hs : s.cidx < q.conf.rngszWrb) :
    RxOnRing { q with flq := q.flq.setInfo i s, avail := avail } := by
  refine h.freeList avail rfl rfl h.pend (fun j => ?_)
  show (Function.update q.flq.sdescInfo i s j).cidx < _
  rw [Function.update_apply]
  split_ifs
  · exact hs
  · exact h.info j

end Parts

/-- The receive side leaves the configuration alone. -/
theorem conf_serveFrame : ServeFrame Descq.conf where
  bufs _ _ _ := rfl
  pend _ _ := rfl
  warned _ _ := rfl
  slots _ _ := rfl
  regs _ _ := rfl
  copied _ _ := rfl
  lists _ _ _ _ := rfl
  pidx _ _ _ := rfl

theorem conf_loopFrame : LoopFrame Descq.conf :=
  ⟨conf_serveFrame.toBufFrame, fun _ _ => rfl, fun _ _ _ _ => rfl⟩

/-! ## Posting buffers and reading -/

/-- **Posting buffers again.** -/
theorem RxOnRing.refill {q : Descq} (h : RxOnRing q) (fill : ℕ → FillOutcome) (recycle : Bool)
    (count idx : ℕ) : RxOnRing (qdmaFlqRefill fill recycle count idx q) := by
  have hrefilled : ∀ {d : Descq}, RxOnRing d → ∀ i, RxOnRing (d.refilled i) :=
    fun hd i => hd.setInfo _ i (hd.info i)
  have hset : ∀ {d : Descq}, RxOnRing d → ∀ i s, RxOnRing (d.setFlq (d.flq.setSdesc i s)) :=
    fun {d} hd i s => hd.freeList d.avail rfl rfl hd.pend hd.info
  induction count generalizing idx q with
  | zero => exact h
  | succ count ih =>
      rw [qdmaFlqRefill]
      simp only
      generalize (if idx = q.flq.size then 0 else idx) = i
      have hunmap : RxOnRing (flqUnmapOne q i) := by
        unfold flqUnmapOne
        split_ifs
        · exact hset (h.slots _) i _
        · exact h
      have hfill : RxOnRing (flqFillOne (flqUnmapOne q i) i (fill i)).1 := by
        cases fill i with
        | ok pg dmaAddr => exact hset (hunmap.slots _) i _
        | noMem => exact hunmap
        | mapErr => exact hunmap
      split_ifs
      · exact ih (hrefilled (hset h i _) i) _
      · -- the failure is counted
        unfold Flq.countFailure
        split_ifs
        · exact hfill.freeList _ rfl rfl hfill.pend hfill.info
        · exact hfill.freeList _ rfl rfl hfill.pend hfill.info
      · exact ih (hrefilled hfill i) _

theorem RxOnRing.copyOut {r : Rd} (h : RxOnRing r.d) (page : ℕ → UInt8) (tsg : List SwSg)
    (flen : ℕ) : RxOnRing (copyOut page tsg flen r).d := by
  induction tsg generalizing flen r with
  | nil => exact h
  | cons sg tsg ih =>
      have hcopy : RxOnRing (r.memcpy page sg (min flen (sg.len - r.tsgoff))).d := h.copied _
      rw [Qdma.copyOut]
      simp only
      split_ifs
      · exact h
      · exact ih (r := (r.memcpy page sg (min flen (sg.len - r.tsgoff))).nextEntry tsg) hcopy _
      · exact hcopy

theorem RxOnRing.nextBuf {r : Rd} (h : RxOnRing r.d) : RxOnRing r.nextBuf.d := by
  unfold Rd.nextBuf
  simp only
  split_ifs
  · exact h.cidxPend (h.info _)
  · exact h

theorem copyOut_i (page : ℕ → UInt8) (tsg : List SwSg) (flen : ℕ) (r : Rd) :
    (copyOut page tsg flen r).i = r.i := by
  induction tsg generalizing flen r with
  | nil => rfl
  | cons sg tsg ih =>
      rw [copyOut]
      simp only
      split_ifs
      · rfl
      · exact ih _ _
      · rfl

/-- The reading loop reads at most the buffers it is given. -/
theorem RxOnRing.readLoop {r : Rd} (h : RxOnRing r.d) (n : ℕ) :
    RxOnRing (readLoop n r).d ∧ (readLoop n r).i ≤ r.i + n := by
  induction n generalizing r with
  | zero => exact ⟨h, le_rfl⟩
  | succ n ih =>
      have hcopy := RxOnRing.copyOut (r := { r with foff := 0 }) h
        (r.d.flq.sdesc r.pidx).page r.tsg (r.d.flq.sdesc r.pidx).len
      have hi := copyOut_i (r.d.flq.sdesc r.pidx).page r.tsg (r.d.flq.sdesc r.pidx).len
        { r with foff := 0 }
      rw [Qdma.readLoop]
      simp only
      generalize Qdma.copyOut (r.d.flq.sdesc r.pidx).page r.tsg (r.d.flq.sdesc r.pidx).len
        { r with foff := 0 } = r1 at hcopy hi ⊢
      have hi1 : r1.i = r.i := hi
      split_ifs
      · exact ⟨h, Nat.le_add_right _ _⟩
      · obtain ⟨hon, hle⟩ := ih hcopy.nextBuf
        have hnext : r1.nextBuf.i = r1.i + 1 := rfl
        exact ⟨hon, by omega⟩
      · exact ⟨hcopy, by omega⟩

/-- The end of a read of at most as many buffers as the ring has. -/
theorem RxOnRing.readEnd {r : Rd} (h : RxOnRing r.d) (hi : r.i ≤ r.d.conf.rngsz)
    (updatePidx refill : Bool) : RxOnRing (readEnd r updatePidx refill) := by
  have hrefill : RxOnRing (readRefill r refill) := by
    unfold readRefill
    split_ifs
    · exact h.refill _ _ _ _
    · exact h
  have hconf : (readRefill r refill).conf = r.d.conf := by
    unfold readRefill
    split_ifs
    · exact conf_serveFrame.toPostFrame.refill _ _ _ _ _
    · rfl
  have hbells : ∀ {d : Descq}, RxOnRing d → RxOnRing (readBells d updatePidx) := by
    intro d hd
    unfold readBells
    split_ifs
    · refine (hd.pidxBell ?_).cidxBell hd.wrbPend
      rw [hd.size]
      exact ringIdxDecr_one_lt hd.rngsz hd.pend
    · exact hd
  have hpart : ∀ {d : Descq}, RxOnRing d → ∀ i foff,
      RxOnRing (d.setFlq (d.flq.leavePartway i foff)) := by
    intro d hd i foff
    unfold Flq.leavePartway
    split_ifs
    · exact hd.freeList d.avail rfl rfl hd.pend hd.info
    · exact hd
  have hmove : RxOnRing ((readRefill r refill).setFlq { (readRefill r refill).flq with
      pidxPend := ringIdxIncr (readRefill r refill).flq.pidxPend r.i
        (readRefill r refill).flq.size }) := by
    refine hrefill.freeList _ rfl rfl ?_ hrefill.info
    rw [hrefill.size]
    exact ringIdxIncr_lt hrefill.rngsz hrefill.pend (hconf ▸ hi)
  have hend := hbells (hpart hmove r.pidx r.foff)
  exact hend.freeList _ rfl rfl hend.pend hend.info

/-- **Reading.** -/
theorem RxOnRing.read {q : Descq} (h : RxOnRing q) (cb : SgtReqCb) (updatePidx refill : Bool) :
    RxOnRing (descqStC2hRead q cb updatePidx refill).1 := by
  unfold descqStC2hRead
  simp only
  split_ifs
  · exact h
  · exact h
  · set r : Rd := { d := q, pidx := q.flq.pidxPend, tsg := cb.req.sgl.drop cb.sgIdx,
                    tsgoff := cb.sgOffset, j := cb.sgIdx } with hr
    have hconf := conf_serveFrame.toRxFrame
    obtain ⟨hon, hle⟩ := RxOnRing.readLoop (r := r) h
      (ringIdxDelta q.pidx q.flq.pidxPend q.flq.size)
    refine hon.readEnd (hle.trans ?_) _ _
    have hn := h.rngsz
    rw [hconf.readLoop, h.size, ringIdxDelta_eq_dist (by omega) h.pend h.pidx]
    exact (Nat.zero_add _).trans_le (dist_lt (by have := h.pidx; omega)).le

/-- Serving the pending requests. -/
theorem RxOnRing.packetsProc {q : Descq} (h : RxOnRing q) (cbs : List SgtReqCb) :
    RxOnRing (packetsProcDflt cbs q) := by
  have hdone : ∀ {d : Descq}, RxOnRing d → ∀ cb e, RxOnRing (qdmaSgtReqDone d cb e) :=
    fun hd cb e => hd.lists _ _ _
  have hset : ∀ {d : Descq}, RxOnRing d → ∀ cb, RxOnRing (d.setCb cb) :=
    fun {d} hd cb => hd.lists _ _ d.finished
  induction cbs generalizing q with
  | nil => exact h
  | cons cb cbs ih =>
      have hread := hset (h.read cb false false) (descqStC2hRead q cb false false).2.1
      rw [packetsProcDflt]
      split_ifs
      · exact hdone h _ _
      · simp only
        split_ifs
        · exact ih (hdone (hdone hread _ _) _ _)
        · exact ih (hdone hread _ _)
        · exact hdone hread _ _
        · exact hread

/-! ## Receiving -/

/-- An empty packet ends in the slot it starts in. -/
theorem flNr_zero_sub (s : ℕ) : u32Sub (flNr s 0) 1 = 0 := by
  simp [flNr, u32Sub]

theorem flNr_lt (s len : ℕ) : flNr s len < 2 ^ 32 := by
  unfold flNr
  split_ifs
  · exact (Nat.shiftRight_le _ _).trans_lt (Nat.mod_lt _ (by decide))
  · decide

/-- The length of a packet has 16 bits. -/
theorem cmplInfo_len_le (word : ℕ) : (cmplInfo word).len ≤ 65535 := by
  show (if _ then _ else _) ≤ 65535
  split_ifs
  · exact Nat.and_le_right
  · exact Nat.zero_le _

/-- Marking the buffers of a packet. -/
theorem RxOnRing.markLoop {q : Descq} (h : RxOnRing q) {c : ℕ} (hc : c < q.conf.rngszWrb)
    (n i : ℕ) : RxOnRing (markLoop c n i q) := by
  induction n generalizing i q with
  | zero => exact h
  | succ n ih =>
      have hmark : RxOnRing (q.markValid i c) :=
        (h.flags q.err (q.warned || (q.flq.sdescInfo i).valid)).setInfo q.avail i hc
      exact ih hmark hc _

/-- **Receiving a packet.** -/
theorem RxOnRing.rcvPkt {q : Descq} (h : RxOnRing q) {cmpl : CmplInfo} {len : ℕ}
    (hp : cmpl.pidx < q.conf.rngsz) (hsub : u32Sub (flNr q.flq.pgShift len) 1 ≤ q.conf.rngsz) :
    RxOnRing (rcvPkt q cmpl len).1 ∧ (rcvPkt q cmpl len).2.1.pidx < q.conf.rngsz := by
  have hn := h.rngsz
  have hlast := ringIdxIncr_lt hn hp hsub
  have hnext := ringIdxIncr_lt hn hlast (show 1 ≤ q.conf.rngsz by omega)
  have hcn := ringIdxIncr_lt h.rngszWrb h.cidxWrb
    (show 1 ≤ q.conf.rngszWrb by have := h.cidxWrb; omega)
  unfold Qdma.rcvPkt
  simp only
  generalize ringIdxIncr cmpl.pidx (u32Sub (flNr q.flq.pgShift len) 1) q.conf.rngsz = last
    at hlast hnext ⊢
  have hcut : RxOnRing { q with
      avail := u32Sub q.avail (flNr q.flq.pgShift len), flq := q.flq.setLastLen last len } := by
    unfold Flq.setLastLen
    simp only
    split_ifs <;> exact h.freeList _ rfl rfl h.pend h.info
  generalize (if q.conf.cmplUddEn then some cmpl.entry else none) = udd
  generalize q.flq.setLastLen last len = flq at hcut ⊢
  split
  · -- the packet handler takes it, or refuses
    split_ifs
    · exact ⟨hcut, hp⟩
    · have hpend := @RxOnRing.freeList _ hcut { flq with pidxPend := last }
        (u32Sub q.avail (flNr q.flq.pgShift len)) rfl rfl hlast hcut.info
      exact ⟨hpend.cidxPend h.cidxWrb, hnext⟩
  · refine ⟨?_, hnext⟩
    have hmark := hcut.markLoop hcn (flNr q.flq.pgShift len) cmpl.pidx
    unfold rcvPktKeep
    simp only
    generalize Qdma.markLoop (ringIdxIncr q.cidxWrb 1 q.conf.rngszWrb) _ _ _ = d at hmark ⊢
    have hsop := hmark.setInfo d.avail cmpl.pidx (s := { d.flq.sdescInfo cmpl.pidx with
      sop := true }) (hmark.info cmpl.pidx)
    have heop := hsop.setInfo d.avail last (s := { (d.flq.setSop cmpl.pidx).sdescInfo last with
      eop := true }) (hsop.info last)
    exact heop.freeList _ rfl rfl heop.pend heop.info

/-- An entry without a packet. -/
theorem RxOnRing.rcvUddOnly {q : Descq} (h : RxOnRing q) (cmpl : CmplInfo) :
    RxOnRing (rcvUddOnly q cmpl).1 := by
  unfold Qdma.rcvUddOnly
  split
  · exact h
  · exact h.freeList _ rfl rfl h.pend h.info

theorem RxOnRing.wrbNext {q : Descq} (h : RxOnRing q) : RxOnRing (wrbNext q) := by
  have hw := h.cidxWrb
  unfold Qdma.wrbNext
  split_ifs with hlap
  · exact { h with cidxWrb := Nat.zero_lt_of_lt hw, cur := (Nat.zero_mul _).symm }
  · refine { h with cidxWrb := ?_, cur := ?_ }
    · show q.cidxWrb + 1 < q.conf.rngszWrb
      omega
    · show q.descWrbCur + q.wbEntryLen = (q.cidxWrb + 1) * q.wbEntryLen
      rw [h.cur, Nat.add_mul, Nat.one_mul]

/-- The length of an entry that is taken as a packet is that of its first word. -/
theorem parseCmplEntry_fits {q : Descq} (h : RxOnRing q) :
    RxOnRing (parseCmplEntry q).1 ∧ (parseCmplEntry q).2.1 = cmplInfo (q.descWrb.mem q.descWrbCur) ∧
      (parseCmplEntry q).1.conf = q.conf ∧ (parseCmplEntry q).1.flq = q.flq := by
  unfold parseCmplEntry
  simp only
  split_ifs
  · exact ⟨h.flags _ q.warned, rfl, rfl, rfl⟩
  · exact ⟨h, rfl, rfl, rfl⟩

/-- **Receiving an entry** of the completion ring, whatever the device has written there. -/
theorem RxOnRing.rcvEntry {p : Proc} (h : RxOnRing p.d) (hp : p.pidx < p.d.conf.rngsz) :
    let parsed := parseCmplEntry p.d
    let got := rcvEntry parsed.1 (parsed.2.1.withPidx p.pidx)
    RxOnRing got.1 ∧ got.2.1.pidx < p.d.conf.rngsz ∧ got.1.conf = p.d.conf ∧
      ringIdxIncr p.pidx (u32Sub (flNr parsed.1.flq.pgShift parsed.2.1.len) 1) parsed.1.conf.rngsz
        < p.d.conf.rngsz := by
  intro parsed got
  obtain ⟨hparse, hcmpl, hconf, hflq⟩ := parseCmplEntry_fits h
  have hfits : u32Sub (flNr parsed.1.flq.pgShift parsed.2.1.len) 1 ≤ parsed.1.conf.rngsz := by
    show u32Sub (flNr (parseCmplEntry p.d).1.flq.pgShift (parseCmplEntry p.d).2.1.len) 1 ≤ _
    rw [hflq, hcmpl, hconf]
    exact h.fits p.d.descWrbCur
  change RxOnRing parsed.1 at hparse
  change parsed.1.conf = p.d.conf at hconf
  have hkeep : got.1.conf = p.d.conf :=
    (conf_serveFrame.toBufFrame.rcvEntry _ _).trans hconf
  rw [← hconf] at hp ⊢
  have hlast := ringIdxIncr_lt hparse.rngsz hp hfits
  have hrcv : RxOnRing got.1 ∧ got.2.1.pidx < parsed.1.conf.rngsz := by
    show RxOnRing (Qdma.rcvEntry parsed.1 (parsed.2.1.withPidx p.pidx)).1 ∧
      (Qdma.rcvEntry parsed.1 (parsed.2.1.withPidx p.pidx)).2.1.pidx < _
    unfold Qdma.rcvEntry
    split_ifs
    · exact hparse.rcvPkt hp hfits
    · exact ⟨hparse.rcvUddOnly _, hp⟩
    · exact ⟨hparse, hp⟩
  exact ⟨hrcv.1, hrcv.2, hkeep.trans hconf.symm, hlast⟩

/-- **The loop over the completion entries.** -/
theorem RxOnRing.procLoop {p : Proc} (h : RxOnRing p.d) (hp : p.pidx < p.d.conf.rngsz) (n : ℕ) :
    RxOnRing (procLoop n p).d ∧ (procLoop n p).pidx < p.d.conf.rngsz := by
  induction n generalizing p with
  | zero => exact ⟨h, hp⟩
  | succ n ih =>
      have hparse := (parseCmplEntry_fits h).1
      obtain ⟨hon, hlt, hkeep, -⟩ := h.rcvEntry hp
      rw [Qdma.procLoop]
      simp only
      generalize parseCmplEntry p.d = parsed at hparse hon hlt hkeep ⊢
      generalize Qdma.rcvEntry parsed.1 (parsed.2.1.withPidx p.pidx) = got at hon hlt hkeep ⊢
      have hnext : (Qdma.wrbNext got.1).conf = p.d.conf := (conf_loopFrame.wrbNext got.1).trans hkeep
      split_ifs
      · exact ⟨hparse, hp⟩
      · exact ⟨hparse, hp⟩
      · exact ⟨hon, hp⟩
      · obtain ⟨hon', hlt'⟩ := ih
          (p := { d := Qdma.wrbNext got.1, pidx := got.2.1.pidx, procCnt := p.procCnt + 1 })
          hon.wrbNext (hnext ▸ hlt)
        exact ⟨hon', hnext ▸ hlt'⟩

/-- The slots of the last buffers of the packets the loop comes to, as `rcv_pkt` computes them. -/
def procLasts : ℕ → Proc → List ℕ
  | 0, _ => []
  | n + 1, p =>
      let (d, cmpl, rv) := parseCmplEntry p.d
      if rv < 0 then []
      else if cmpl.color ≠ d.color then []
      else
        let last := ringIdxIncr p.pidx (u32Sub (flNr d.flq.pgShift cmpl.len) 1) d.conf.rngsz
        let (d', cmpl', rv) := rcvEntry d (cmpl.withPidx p.pidx)
        (if cmpl.descUsed then [last] else []) ++
          if rv < 0 then []
          else procLasts n { d := wrbNext d', pidx := cmpl'.pidx, procCnt := p.procCnt + 1 }

/-- Those of a call of `descq_process_completion_st_c2h`. -/
def Descq.lasts (d : Descq) (budget : ℤ) : List ℕ :=
  if d.err then []
  else if d.conf.fpDescqC2hPacket.isNone && d.pendList.isEmpty && d.workList.isEmpty then []
  else
    procLasts (procBudget budget (ringIdxDelta d.descWrb.wbPidx d.cidxWrb d.conf.rngszWrb))
      { d := d, pidx := d.pidx }

/-- They are slots of the ring. -/
theorem RxOnRing.procLasts {p : Proc} (h : RxOnRing p.d) (hp : p.pidx < p.d.conf.rngsz) (n : ℕ) :
    ∀ i ∈ procLasts n p, i < p.d.conf.rngsz := by
  induction n generalizing p with
  | zero => exact fun _ hi => absurd hi List.not_mem_nil
  | succ n ih =>
      obtain ⟨hon, hlt, hkeep, hlast⟩ := h.rcvEntry hp
      rw [Qdma.procLasts]
      simp only
      generalize parseCmplEntry p.d = parsed at hon hlt hkeep hlast ⊢
      generalize Qdma.rcvEntry parsed.1 (parsed.2.1.withPidx p.pidx) = got at hon hlt hkeep ⊢
      have hnext : (Qdma.wrbNext got.1).conf = p.d.conf := (conf_loopFrame.wrbNext got.1).trans hkeep
      have hrest := ih
        (p := { d := Qdma.wrbNext got.1, pidx := got.2.1.pidx, procCnt := p.procCnt + 1 })
        hon.wrbNext (hnext ▸ hlt)
      intro i hi
      split_ifs at hi with h₁ h₂ hused hrv hrv
      · exact absurd hi List.not_mem_nil
      · exact absurd hi List.not_mem_nil
      · rw [List.append_nil, List.mem_singleton] at hi
        exact hi ▸ hlast
      · rcases List.mem_cons.mp hi with rfl | hi
        · exact hlast
        · exact hnext ▸ hrest i hi
      · exact absurd hi List.not_mem_nil
      · exact hnext ▸ hrest i hi

theorem RxOnRing.lasts {q : Descq} (h : RxOnRing q) (budget : ℤ) :
    ∀ i ∈ q.lasts budget, i < q.conf.rngsz := by
  unfold Descq.lasts
  split_ifs
  · exact fun _ hi => absurd hi List.not_mem_nil
  · exact fun _ hi => absurd hi List.not_mem_nil
  · exact RxOnRing.procLasts (p := { d := q, pidx := q.pidx }) h h.pidx _

/-- The buffers a service call has used are posted again. -/
theorem RxOnRing.procRefill {q : Descq} (h : RxOnRing q) (pidxPend : ℕ)
    (fill : ℕ → FillOutcome) : RxOnRing (procRefill q pidxPend fill) := by
  unfold Qdma.procRefill
  simp only
  split_ifs
  · have hfill := h.refill fill q.conf.fpDescqC2hPacket.isNone
      (ringIdxDelta q.flq.pidxPend pidxPend q.flq.size) pidxPend
    refine hfill.pidxBell ?_
    rw [hfill.size]
    exact ringIdxDecr_one_lt hfill.rngsz hfill.pend
  · exact h

/-- **Completion processing.** -/
theorem RxOnRing.processCompletion {q : Descq} (h : RxOnRing q) (budget : ℤ)
    (fill : ℕ → FillOutcome) : RxOnRing (descqProcessCompletionStC2h q budget fill).1 := by
  unfold descqProcessCompletionStC2h
  simp only
  split_ifs
  · exact h
  · exact h
  · exact h
  · obtain ⟨hon, hlt⟩ := RxOnRing.procLoop (p := { d := q, pidx := q.pidx }) h h.pidx
      (procBudget budget (ringIdxDelta q.descWrb.wbPidx q.cidxWrb q.conf.rngszWrb))
    have hconf := conf_loopFrame.procLoop
      (procBudget budget (ringIdxDelta q.descWrb.wbPidx q.cidxWrb q.conf.rngszWrb))
      { d := q, pidx := q.pidx }
    have hwb := h.wbPidx
    generalize Qdma.procLoop (procBudget budget (ringIdxDelta q.descWrb.wbPidx q.cidxWrb
      q.conf.rngszWrb)) { d := q, pidx := q.pidx } = p at hon hlt hconf ⊢
    have hlt' : p.pidx < p.d.conf.rngsz := hconf ▸ hlt
    have hwb' : q.descWrb.wbPidx < p.d.conf.rngszWrb := hconf ▸ hwb
    have hend : ∀ {d : Descq}, RxOnRing d → RxOnRing (descqWrbCidxUpdate
        (Qdma.procRefill d q.flq.pidxPend fill)
        (Qdma.procRefill d q.flq.pidxPend fill).cidxWrbPend) :=
      fun hd => (hd.procRefill _ _).cidxBell (hd.procRefill _ _).wrbPend
    split
    · exact hon
    · unfold procEnd
      simp only
      split_ifs
      · exact hend ((hon.indices hwb' hlt').packetsProc _)
      · exact hend (hon.indices hwb' hlt')
      · exact hon

/-! ## Runs -/

/-- A queue with its device, and the slots that `rcv_pkt` has used for the last ones of packets. -/
structure Ix where
  s : Rx
  used : List ℕ := []

/-- One step. -/
def Ix.step (c : Ix) : CxLabel → Ix
  | .rx (.service budget fill) =>
      { s := c.s.step (.service budget fill), used := c.used ++ c.s.q.lasts budget }
  | .rx l => { c with s := c.s.step l }
  | .upper budget fill fp =>
      { s := (c.s.withHandler fp).step (.service budget fill)
        used := c.used ++ (c.s.withHandler fp).q.lasts budget }

/-- The packet of the entry `word`, if it has one, takes only buffers that are posted, of those
from `bufPidx` on. -/
def Descq.PostedFor (q : Descq) (word bufPidx : ℕ) : Prop :=
  (cmplInfo word).descUsed = true →
    pktNr q.conf.c2hBufsz (cmplInfo word).len ≤ dist q.conf.rngsz bufPidx q.regs.pidx

/-- What the device may do: it writes a packet only to buffers that are posted, as many of its own
size as it takes, and publishes slots of the completion ring.  A handler is called on a queue with
one, and answers as it likes. -/
def IxLegal (c : Ix) : CxLabel → Prop
  | .rx (.dma word _) => c.s.q.PostedFor word c.s.bufPidx
  | .rx (.publish pidx) => pidx < c.s.q.conf.rngszWrb
  | .rx _ => True
  | .upper _ _ _ => c.s.q.conf.fpDescqC2hPacket.isSome

/-- A step of the device after which the driver's counts still fit. -/
def RxFits (s : Rx) : RxLabel → Prop
  | .dma word _ => s.q.Fits word
  | .publish pidx => pidx < s.q.conf.rngszWrb
  | _ => True

/-- **Every step keeps the indices on the rings.** -/
theorem rxOnRing_step {s : Rx} {l : RxLabel} (h : RxOnRing s.q) (hok : RxFits s l) :
    RxOnRing (s.step l).q := by
  cases l with
  | submit req =>
      have hq : (s.step (.submit req)).q = _ := (submit_rx s req).2
      rw [hq]
      split_ifs
      · exact h
      · exact h.read _ _ _
  | pend id =>
      unfold Rx.step
      simp only
      split
      · rename_i cb _
        obtain ⟨-, -, hq | hq⟩ := pendCb_rx s cb
        · rw [hq]
          exact h
        · rw [hq]
          exact (h.lists s.q.workList _ s.q.finished).cidxBell h.wrbPend
      · exact h
  | wait id =>
      obtain ⟨-, hq | hq⟩ := wait_rx s id
      · exact hq.symm ▸ h
      · exact hq.symm ▸ h.lists _ _ s.q.finished
  | packetRead req =>
      obtain ⟨-, hq | hq⟩ := packetRead_rx s req
      · exact hq.symm ▸ h
      · exact hq.symm ▸ h.read _ _ _
  | service budget fill => exact h.processCompletion budget fill
  | dma word payload =>
      refine { h with fits := fun o => ?_ }
      show s.q.Fits (Function.update s.q.descWrb.mem _ word o)
      rw [Function.update_apply]
      split_ifs
      · exact hok
      · exact h.fits o
  | publish pidx =>
      exact { h with wbPidx := hok }

/-! ## The sizes of the buffers -/

/-- The shift and the number of slots of a free list. -/
def Flq.sizes (q : Flq) : ℕ × ℕ := (q.pgShift, q.size)

/-- What the driver and the device take for the sizes. -/
def Descq.bufSizes (d : Descq) : QueueConf × ℕ × ℕ := (d.conf, d.flq.sizes)

theorem RxAgree.congr {q q' : Descq} (h : RxAgree q) (heq : q'.bufSizes = q.bufSizes) :
    RxAgree q' := by
  have hconf : q'.conf = q.conf := congrArg Prod.fst heq
  have hshift : q'.flq.pgShift = q.flq.pgShift := congrArg (fun x => x.2.1) heq
  unfold RxAgree
  rw [hconf, hshift]
  exact h

/-- Buffers of one size agree. -/
theorem rxAgree_two_pow {q : Descq} (hs : q.flq.pgShift ≤ 31)
    (hsize : q.conf.c2hBufsz = 2 ^ q.flq.pgShift) : RxAgree q := by
  intro len hlen hlt
  have hpos := pktNr_pos (Nat.two_pow_pos q.flq.pgShift) len
  have hmax := flNr_lt q.flq.pgShift len
  rw [flNr_eq hs hlen] at hmax ⊢
  rw [hsize] at hlt
  rw [u32Sub_of_le (by omega) hpos]
  omega

/-- What the device writes is taken within the ring. -/
theorem RxAgree.fits {q : Descq} (h : RxAgree q) (hn : 0 < q.conf.rngsz) {word bufPidx : ℕ}
    (hposted : q.PostedFor word bufPidx) : q.Fits word := by
  unfold Descq.Fits
  cases hused : (cmplInfo word).descUsed with
  | true => exact h _ (cmplInfo_len_le word) ((hposted hused).trans_lt (dist_lt hn))
  | false =>
      -- without a packet the entry has length zero
      have hbit : word.testBit 3 = false := hused
      have hlen : (cmplInfo word).len = 0 := by
        show (if _ then _ else _) = 0
        rw [hbit, Bool.and_false]
        rfl
      rw [hlen, flNr_zero_sub]
      exact Nat.zero_le _

/-- The receive side leaves the sizes of the free list alone. -/
theorem sizes_rcvFrame : FlqRcvFrame Flq.sizes :=
  ⟨⟨fun _ _ _ _ _ => rfl, fun _ _ _ _ _ _ => rfl⟩, fun _ _ => rfl⟩

/-- **Every step keeps the sizes.** -/
theorem bufSizes_step (s : Rx) (l : RxLabel) : (s.step l).q.bufSizes = s.q.bufSizes := by
  have hread : ∀ cb, (descqStC2hRead s.q cb true true).1.bufSizes = s.q.bufSizes := fun cb =>
    Prod.ext (conf_serveFrame.toRxFrame.read s.q cb true true)
      (sizes_rcvFrame.toFlqFrame.read s.q cb true true)
  cases l with
  | submit req =>
      have hq : (s.step (.submit req)).q = _ := (submit_rx s req).2
      rw [hq]
      split_ifs
      · rfl
      · exact hread _
  | pend id =>
      rcases step_pend_cases s id with hq | ⟨cb, -, -, hq⟩
      · rw [hq]
      · obtain ⟨-, -, hq' | hq'⟩ := pendCb_rx s cb
        · rw [hq, hq']
        · rw [hq, hq']
          rfl
  | wait id =>
      obtain ⟨-, hq | hq⟩ := wait_rx s id
      · exact congrArg Descq.bufSizes hq
      · exact (congrArg Descq.bufSizes hq).trans rfl
  | packetRead req =>
      obtain ⟨-, hq | hq⟩ := packetRead_rx s req
      · exact congrArg Descq.bufSizes hq
      · exact (congrArg Descq.bufSizes hq).trans (hread _)
  | service budget fill =>
      exact Prod.ext
        (conf_serveFrame.processCompletion conf_loopFrame s.q budget fill)
        (sizes_rcvFrame.processCompletion (fun _ _ _ => rfl) s.q budget fill)
  | dma word payload => rfl
  | publish pidx => rfl

/-! ## The law over runs -/

/-- Every index is on its ring, whatever the device writes next. -/
structure IxInv (c : Ix) : Prop where
  ring : RxOnRing c.s.q
  agree : RxAgree c.s.q
  used : ∀ i ∈ c.used, i < c.s.q.conf.rngsz

/-- A step of the queue itself, with the slots it has used. -/
theorem IxInv.rx {c : Ix} (h : IxInv c) {l : RxLabel} (hok : RxFits c.s l) {us : List ℕ}
    (hus : ∀ i ∈ us, i < c.s.q.conf.rngsz) : IxInv { s := c.s.step l, used := c.used ++ us } := by
  have hsizes := bufSizes_step c.s l
  have hconf : (c.s.step l).q.conf = c.s.q.conf := congrArg Prod.fst hsizes
  refine ⟨rxOnRing_step h.ring hok, h.agree.congr hsizes, fun i hi => ?_⟩
  show i < (c.s.step l).q.conf.rngsz
  rw [hconf]
  exact (List.mem_append.mp hi).elim (h.used i) (hus i)

/-- **Every step keeps it.** -/
theorem IxInv.step {c : Ix} (h : IxInv c) {l : CxLabel} (hok : IxLegal c l) :
    IxInv (c.step l) := by
  have hn : 0 < c.s.q.conf.rngsz := Nat.zero_lt_of_lt h.ring.pidx
  have hplain : ∀ {l : RxLabel}, RxFits c.s l → IxInv { c with s := c.s.step l } :=
    fun {l} hfit => by
      have hnone : ∀ i ∈ ([] : List ℕ), i < c.s.q.conf.rngsz := fun i hi =>
        absurd hi List.not_mem_nil
      have hrx := h.rx hfit hnone
      rwa [List.append_nil] at hrx
  cases l with
  | rx l =>
      cases l with
      | service budget fill => exact h.rx (l := .service budget fill) trivial (h.ring.lasts budget)
      | dma word payload => exact hplain (l := .dma word payload) (h.agree.fits hn hok)
      | publish pidx => exact hplain (l := .publish pidx) hok
      | submit req => exact hplain (l := .submit req) trivial
      | pend id => exact hplain (l := .pend id) trivial
      | wait id => exact hplain (l := .wait id) trivial
      | packetRead req => exact hplain (l := .packetRead req) trivial
  | upper budget fill fp =>
      have hup : IxInv { s := c.s.withHandler fp, used := c.used } :=
        ⟨{ h.ring with }, h.agree, h.used⟩
      exact hup.rx (l := .service budget fill) trivial (hup.ring.lasts budget)

/-- **Every run does.** -/
theorem ixInv_run {c₀ c : Ix} {evs : List CxLabel} (h₀ : IxInv c₀)
    (hrun : Run Ix.step IxLegal c₀ evs c) : IxInv c :=
  hrun.invariant (I := IxInv) h₀ fun _ _ h hok => h.step hok

end Qdma
