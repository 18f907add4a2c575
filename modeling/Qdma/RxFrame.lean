/-
# Frames of the receive side

What the functions of `qdma_st_c2h.c` leave alone, once for every part of a queue: a part
`f` that reads none of the fields a function writes is the same after it.  `BufFrame` is for
receiving packets, `LoopFrame` for the loop over completion entries, `PostFrame` for posting
buffers again, `RxFrame` for reading, `ServeFrame` for serving pending requests, and `FlqFrame`
and `FlqPostFrame` for the parts of the free list.
-/
import Qdma.StC2h

namespace Qdma

/-- `f` reads nothing that receiving a packet writes. -/
structure BufFrame {α : Type*} (f : Descq → α) : Prop where
  bufs : ∀ d flq avail, f { d with flq := flq, avail := avail } = f d
  pend : ∀ d v, f { d with cidxWrbPend := v } = f d
  warned : ∀ d b, f { d with warned := b } = f d

/-- `f` reads nothing that posting buffers again writes. -/
structure PostFrame {α : Type*} (f : Descq → α) : Prop where
  bufs : ∀ d flq avail, f { d with flq := flq, avail := avail } = f d
  slots : ∀ d slot, f { d with desc := { d.desc with slot := slot } } = f d
  regs : ∀ d r, f { d with regs := r } = f d

/-- `f` reads nothing that reading packets writes. -/
structure RxFrame {α : Type*} (f : Descq → α) : Prop extends BufFrame f, PostFrame f where
  copied : ∀ d c, f { d with copied := c } = f d

/-- `f` reads nothing that going through completion entries writes. -/
structure LoopFrame {α : Type*} (f : Descq → α) : Prop extends BufFrame f where
  err : ∀ d b, f { d with err := b } = f d
  next : ∀ d cidx color cur,
    f { d with cidxWrb := cidx, color := color, descWrbCur := cur } = f d

/-- `f` reads nothing that serving requests writes. -/
structure ServeFrame {α : Type*} (f : Descq → α) : Prop extends RxFrame f where
  lists : ∀ d work pend finished,
    f { d with workList := work, pendList := pend, finished := finished } = f d
  pidx : ∀ d pidxWrb pidx, f { d with pidxWrb := pidxWrb, pidx := pidx } = f d

variable {α : Type*} {f : Descq → α}

/-! ## Reading and posting again -/

theorem RxFrame.copyOut (hf : RxFrame f) (page : ℕ → UInt8) (tsg : List SwSg) (flen : ℕ)
    (r : Rd) : f (copyOut page tsg flen r).d = f r.d := by
  induction tsg generalizing flen r with
  | nil => rfl
  | cons sg tsg ih =>
      have hcopy : f (r.memcpy page sg (min flen (sg.len - r.tsgoff))).d = f r.d :=
        hf.copied _ _
      rw [Qdma.copyOut]
      simp only
      split_ifs
      · rfl
      · exact (ih _ _).trans hcopy
      · exact hcopy

theorem RxFrame.readLoop (hf : RxFrame f) (n : ℕ) (r : Rd) : f (readLoop n r).d = f r.d := by
  induction n generalizing r with
  | zero => rfl
  | succ n ih =>
      have hcopy := hf.copyOut (r.d.flq.sdesc r.pidx).page r.tsg (r.d.flq.sdesc r.pidx).len
        { r with foff := 0 }
      have hnext : ∀ r : Rd, f r.nextBuf.d = f r.d := by
        intro r
        unfold Rd.nextBuf
        simp only
        split_ifs
        · exact hf.pend _ _
        · rfl
      rw [Qdma.readLoop]
      simp only
      split_ifs
      · rfl
      · exact (ih _).trans ((hnext _).trans hcopy)
      · exact hcopy

theorem PostFrame.refill (hf : PostFrame f) (fill : ℕ → FillOutcome) (recycle : Bool)
    (count idx : ℕ) (d : Descq) : f (qdmaFlqRefill fill recycle count idx d) = f d := by
  have hset : ∀ d q, f (Descq.setFlq d q) = f d := fun d q => hf.bufs d q d.avail
  have hrefilled : ∀ (d : Descq) i, f (d.refilled i) = f d := fun d i => hf.bufs d _ _
  have hboth : ∀ (d : Descq) slot q,
      f { d with desc := { d.desc with slot := slot }, flq := q } = f d :=
    fun d slot q => (hf.bufs { d with desc := { d.desc with slot := slot } } q d.avail).trans
      (hf.slots d slot)
  induction count generalizing idx d with
  | zero => rfl
  | succ count ih =>
      rw [qdmaFlqRefill]
      simp only
      generalize (if idx = d.flq.size then 0 else idx) = i
      have hunmap : f (flqUnmapOne d i) = f d := by
        unfold flqUnmapOne
        split_ifs
        · exact hboth d _ _
        · rfl
      have hfill : f (flqFillOne (flqUnmapOne d i) i (fill i)).1 = f d := by
        refine Eq.trans ?_ hunmap
        cases fill i with
        | ok pg dmaAddr => exact hboth (flqUnmapOne d i) _ _
        | noMem => rfl
        | mapErr => rfl
      split_ifs
      · exact (ih _ _).trans ((hrefilled _ _).trans (hset _ _))
      · exact (hset _ _).trans hfill
      · exact (ih _ _).trans ((hrefilled _ _).trans hfill)

theorem RxFrame.readEnd (hf : RxFrame f) (r : Rd) (updatePidx refill : Bool) :
    f (readEnd r updatePidx refill) = f r.d := by
  have hset : ∀ d q, f (Descq.setFlq d q) = f d := fun d q => hf.bufs d q d.avail
  have hrefill : f (readRefill r refill) = f r.d := by
    unfold readRefill
    split_ifs
    · exact hf.toPostFrame.refill _ _ _ _ _
    · rfl
  have hbells : ∀ d, f (readBells d updatePidx) = f d := by
    intro d
    unfold readBells
    split_ifs
    · exact hf.regs d _
    · rfl
  unfold Qdma.readEnd
  simp only
  rw [hset, hbells, hset, hset, hrefill]

/-- **Reading.** -/
theorem RxFrame.read (hf : RxFrame f) (d : Descq) (cb : SgtReqCb) (updatePidx refill : Bool) :
    f (descqStC2hRead d cb updatePidx refill).1 = f d := by
  unfold descqStC2hRead
  simp only
  split_ifs
  · rfl
  · rfl
  · exact (hf.readEnd _ _ _).trans (hf.readLoop _ _)

/-- **Posting the buffers of a service call again.** -/
theorem PostFrame.procRefill (hf : PostFrame f) (d : Descq) (pidxPend : ℕ)
    (fill : ℕ → FillOutcome) : f (procRefill d pidxPend fill) = f d := by
  unfold Qdma.procRefill
  simp only
  split_ifs
  · exact (hf.regs _ _).trans (hf.refill _ _ _ _ _)
  · rfl

theorem RxFrame.packetRead (hf : RxFrame f) (d : Descq) (id : ℕ) (req : Request) :
    f (qdmaQueuePacketRead d id req).1 = f d := by
  unfold qdmaQueuePacketRead
  split_ifs
  · rfl
  · exact hf.read _ _ _ _

/-- **Serving the pending requests.** -/
theorem ServeFrame.packetsProc (hf : ServeFrame f) (cbs : List SgtReqCb) (d : Descq) :
    f (packetsProcDflt cbs d) = f d := by
  have hdone : ∀ d cb e, f (qdmaSgtReqDone d cb e) = f d := fun d _ _ => hf.lists d _ _ _
  have hset : ∀ d cb, f (Descq.setCb d cb) = f d := fun d _ => hf.lists d _ _ d.finished
  induction cbs generalizing d with
  | nil => rfl
  | cons cb cbs ih =>
      have hread := hf.read d cb false false
      rw [packetsProcDflt]
      split_ifs
      · exact hdone d cb 0
      · simp only
        split_ifs <;> simp only [ih, hdone, hset, hread]

/-- **The end of a service call.** -/
theorem ServeFrame.procEnd (hf : ServeFrame f) (p : Proc) (pidxWrb pidxPend : ℕ)
    (fill : ℕ → FillOutcome) : f (procEnd p pidxWrb pidxPend fill) = f p.d := by
  have hbell : ∀ d, f (descqWrbCidxUpdate (Qdma.procRefill d pidxPend fill)
      (Qdma.procRefill d pidxPend fill).cidxWrbPend) = f d :=
    fun d => (hf.regs _ _).trans (hf.toPostFrame.procRefill d pidxPend fill)
  unfold Qdma.procEnd
  simp only
  split_ifs
  · exact (hbell _).trans ((hf.packetsProc _ _).trans (hf.pidx _ _ _))
  · exact (hbell _).trans (hf.pidx _ _ _)
  · rfl

/-! ## Going through entries -/

theorem BufFrame.markLoop (hf : BufFrame f) (c n i : ℕ) (d : Descq) :
    f (markLoop c n i d) = f d := by
  induction n generalizing i d with
  | zero => rfl
  | succ n ih =>
      refine (ih _ _).trans ?_
      exact (hf.bufs { d with warned := d.warned || (d.flq.sdescInfo i).valid } _ d.avail).trans
        (hf.warned d _)

theorem BufFrame.keep (hf : BufFrame f) (d : Descq) (pidx last nr len : ℕ) :
    f (rcvPktKeep d pidx last nr len) = f d := by
  have hmark := hf.markLoop (ringIdxIncr d.cidxWrb 1 d.conf.rngszWrb) nr pidx d
  unfold rcvPktKeep
  generalize Qdma.markLoop (ringIdxIncr d.cidxWrb 1 d.conf.rngszWrb) nr pidx d = d1 at hmark ⊢
  exact (hf.bufs d1 _ d1.avail).trans hmark

/-- **Receiving an entry.** -/
theorem BufFrame.rcvEntry (hf : BufFrame f) (d : Descq) (cmpl : CmplInfo) :
    f (rcvEntry d cmpl).1 = f d := by
  unfold Qdma.rcvEntry rcvPkt rcvUddOnly
  split_ifs
  · simp only
    have hlen : ∀ q a, f { d with avail := a, flq := q } = f d := fun q a => hf.bufs d q a
    have hacc : ∀ q a v, f { d with avail := a, flq := q, cidxWrbPend := v } = f d :=
      fun q a v => (hf.pend { d with avail := a, flq := q } v).trans (hlen q a)
    generalize (if d.conf.cmplUddEn then some cmpl.entry else none) = udd
    split
    · split_ifs
      · exact hlen _ _
      · exact hacc _ _ _
    · exact (hf.keep _ _ _ _ _).trans (hlen _ _)
  · simp only
    split
    · rfl
    · exact hf.bufs d _ d.avail
  · rfl

theorem LoopFrame.wrbNext (hf : LoopFrame f) (d : Descq) : f (wrbNext d) = f d := by
  unfold Qdma.wrbNext
  split_ifs
  · exact hf.next d _ _ _
  · exact hf.next d _ d.color _

/-- **The loop.** -/
theorem LoopFrame.procLoop (hf : LoopFrame f) (n : ℕ) (p : Proc) : f (procLoop n p).d = f p.d := by
  induction n generalizing p with
  | zero => rfl
  | succ n ih =>
      have hparse : f (parseCmplEntry p.d).1 = f p.d := by
        unfold parseCmplEntry
        simp only
        split_ifs
        · exact hf.err p.d _
        · rfl
      have hrcv := hf.rcvEntry (parseCmplEntry p.d).1 ((parseCmplEntry p.d).2.1.withPidx p.pidx)
      rw [Qdma.procLoop]
      simp only
      split_ifs
      · exact hparse
      · exact hparse
      · exact hrcv.trans hparse
      · exact (ih _).trans ((hf.wrbNext _).trans (hrcv.trans hparse))

/-- **Frame of completion processing.** -/
theorem ServeFrame.processCompletion (hf : ServeFrame f) (hl : LoopFrame f) (d : Descq) (budget : ℤ)
    (fill : ℕ → FillOutcome) : f (descqProcessCompletionStC2h d budget fill).1 = f d := by
  unfold descqProcessCompletionStC2h
  simp only
  split_ifs
  · rfl
  · rfl
  · rfl
  · have hloop := hl.procLoop (procBudget budget
      (ringIdxDelta d.descWrb.wbPidx d.cidxWrb d.conf.rngszWrb)) { d := d, pidx := d.pidx }
    split
    · exact hloop
    · exact (hf.procEnd _ _ _ _).trans hloop

/-! ## The free list -/

/-- `g` reads nothing of a free list that reading writes, which leaves each slot its page and its
mapping. -/
structure FlqFrame {α : Type*} (g : Flq → α) : Prop where
  slot : ∀ q i s, s.pg = (q.sdesc i).pg → s.dmaAddr = (q.sdesc i).dmaAddr →
    g (q.setSdesc i s) = g q
  books : ∀ q dlen fail err pend info,
    g { q with
      pktDlen := dlen, allocFail := fail, mappingErr := err, pidxPend := pend
      sdescInfo := info } = g q

/-- `g` reads nothing of a free list that posting buffers again writes. -/
structure FlqPostFrame {α : Type*} (g : Flq → α) : Prop where
  slots : ∀ q i s, g (q.setSdesc i s) = g q
  books : ∀ q fail err info,
    g { q with allocFail := fail, mappingErr := err, sdescInfo := info } = g q

/-- Nor does it read what receiving counts. -/
structure FlqRcvFrame {α : Type*} (g : Flq → α) : Prop extends FlqFrame g where
  udd : ∀ q n, g { q with uddCnt := n } = g q

theorem copyOut_flq (page : ℕ → UInt8) (tsg : List SwSg) (flen : ℕ) (r : Rd) :
    (copyOut page tsg flen r).d.flq = r.d.flq := by
  induction tsg generalizing flen r with
  | nil => rfl
  | cons sg tsg ih =>
      rw [copyOut]
      simp only
      split_ifs
      · rfl
      · exact ih _ _
      · rfl

theorem readLoop_flq (n : ℕ) (r : Rd) : (readLoop n r).d.flq = r.d.flq := by
  induction n generalizing r with
  | zero => rfl
  | succ n ih =>
      have hcopy := copyOut_flq (r.d.flq.sdesc r.pidx).page r.tsg (r.d.flq.sdesc r.pidx).len
        { r with foff := 0 }
      have hnext : ∀ r : Rd, r.nextBuf.d.flq = r.d.flq := by
        intro r
        unfold Rd.nextBuf
        simp only
        split_ifs
        · rfl
        · rfl
      rw [readLoop]
      simp only
      split_ifs
      · rfl
      · exact (ih _).trans ((hnext _).trans hcopy)
      · exact hcopy

section FreeList

variable {g : Flq → α}

theorem FlqFrame.refilled (hg : FlqFrame g) (d : Descq) (i : ℕ) : g (d.refilled i).flq = g d.flq :=
  hg.books d.flq _ _ _ _ _

theorem FlqFrame.countFailure (hg : FlqFrame g) (q : Flq) (rv : ℤ) :
    g (q.countFailure rv) = g q := by
  unfold Flq.countFailure
  split_ifs
  · exact hg.books q _ _ _ _ _
  · exact hg.books q _ _ _ _ _

/-- A refill that recycles the buffers. -/
theorem FlqFrame.recycle (hg : FlqFrame g) (fill : ℕ → FillOutcome) (count idx : ℕ) (d : Descq) :
    g (qdmaFlqRefill fill true count idx d).flq = g d.flq := by
  induction count generalizing idx d with
  | zero => rfl
  | succ count ih =>
      rw [qdmaFlqRefill]
      simp only [if_true]
      exact (ih _ _).trans ((hg.refilled _ _).trans (hg.slot d.flq _ _ rfl rfl))

theorem FlqFrame.leavePartway (hg : FlqFrame g) (q : Flq) (i foff : ℕ) :
    g (q.leavePartway i foff) = g q := by
  unfold Flq.leavePartway
  split_ifs
  · exact hg.slot q i _ rfl rfl
  · rfl

theorem FlqFrame.readEnd (hg : FlqFrame g) (r : Rd) (updatePidx refill : Bool) :
    g (Qdma.readEnd r updatePidx refill).flq = g r.d.flq := by
  have hrefill : g (readRefill r refill).flq = g r.d.flq := by
    unfold readRefill
    split_ifs
    · exact hg.recycle _ _ _ _
    · rfl
  have hbells : ∀ d : Descq, (readBells d updatePidx).flq = d.flq := by
    intro d
    unfold readBells
    split_ifs
    · rfl
    · rfl
  refine Eq.trans ?_ hrefill
  have hdlen : ∀ (d : Descq) (n : ℕ), g (d.setFlq { d.flq with pktDlen := n }).flq = g d.flq :=
    fun d _ => hg.books d.flq _ _ _ _ _
  unfold Qdma.readEnd
  simp only
  rw [hdlen, hbells]
  exact (hg.leavePartway _ _ _).trans (hg.books _ _ _ _ _ _)

/-- **Reading.** -/
theorem FlqFrame.read (hg : FlqFrame g) (d : Descq) (cb : SgtReqCb) (updatePidx refill : Bool) :
    g (descqStC2hRead d cb updatePidx refill).1.flq = g d.flq := by
  unfold descqStC2hRead
  simp only
  split_ifs
  · rfl
  · rfl
  · exact (hg.readEnd _ _ _).trans (congrArg g (readLoop_flq _ _))

/-- Serving the pending requests. -/
theorem FlqFrame.packetsProc (hg : FlqFrame g) (cbs : List SgtReqCb) (d : Descq) :
    g (packetsProcDflt cbs d).flq = g d.flq := by
  have hdone : ∀ (d : Descq) cb e, (qdmaSgtReqDone d cb e).flq = d.flq := fun _ _ _ => rfl
  have hset : ∀ (d : Descq) cb, (d.setCb cb).flq = d.flq := fun _ _ => rfl
  induction cbs generalizing d with
  | nil => rfl
  | cons cb cbs ih =>
      have hread := hg.read d cb false false
      rw [packetsProcDflt]
      split_ifs
      · rw [hdone]
      · simp only
        split_ifs <;> simp only [ih, hdone, hset, hread]

theorem FlqFrame.markLoop (hg : FlqFrame g) (c n i : ℕ) (d : Descq) :
    g (Qdma.markLoop c n i d).flq = g d.flq := by
  induction n generalizing i d with
  | zero => rfl
  | succ n ih => exact (ih _ _).trans (hg.books d.flq _ _ _ _ _)

/-- A packet that is kept. -/
theorem FlqRcvFrame.keep (hg : FlqRcvFrame g) (d : Descq) (pidx last nr len : ℕ) :
    g (rcvPktKeep d pidx last nr len).flq = g d.flq := by
  have hmark := hg.markLoop (ringIdxIncr d.cidxWrb 1 d.conf.rngszWrb) nr pidx d
  unfold rcvPktKeep
  generalize Qdma.markLoop (ringIdxIncr d.cidxWrb 1 d.conf.rngszWrb) nr pidx d = d₁ at hmark ⊢
  exact (hg.books _ _ _ _ _ _).trans ((hg.udd d₁.flq _).trans hmark)

theorem FlqFrame.setLastLen (hg : FlqFrame g) (q : Flq) (last len : ℕ) :
    g (q.setLastLen last len) = g q := by
  unfold Flq.setLastLen
  simp only
  split_ifs
  · exact hg.slot q last _ rfl rfl
  · rfl
  · exact hg.slot q last _ rfl rfl

/-- Receiving an entry. -/
theorem FlqRcvFrame.rcvEntry (hg : FlqRcvFrame g) (d : Descq) (cmpl : CmplInfo) :
    g (Qdma.rcvEntry d cmpl).1.flq = g d.flq := by
  unfold Qdma.rcvEntry rcvPkt rcvUddOnly
  split_ifs
  · simp only
    have hlast := hg.setLastLen d.flq
      (ringIdxIncr cmpl.pidx (u32Sub (flNr d.flq.pgShift cmpl.len) 1) d.conf.rngsz) cmpl.len
    generalize (if d.conf.cmplUddEn then some cmpl.entry else none) = udd
    split
    · split_ifs
      · exact (hg.books _ _ _ _ _ _).trans hlast
      · exact (hg.books _ _ _ _ _ _).trans hlast
    · exact (hg.keep _ _ _ _ _).trans hlast
  · simp only
    split
    · rfl
    · exact hg.udd d.flq _
  · rfl

/-- The loop over the completion entries. -/
theorem FlqRcvFrame.procLoop (hg : FlqRcvFrame g) (n : ℕ) (p : Proc) :
    g (Qdma.procLoop n p).d.flq = g p.d.flq := by
  have hnext : ∀ d : Descq, (wrbNext d).flq = d.flq := by
    intro d
    unfold wrbNext
    split_ifs
    · rfl
    · rfl
  induction n generalizing p with
  | zero => rfl
  | succ n ih =>
      have hparse : (parseCmplEntry p.d).1.flq = p.d.flq := by
        unfold parseCmplEntry
        simp only
        split_ifs
        · rfl
        · rfl
      have hrcv := (hg.rcvEntry (parseCmplEntry p.d).1
        ((parseCmplEntry p.d).2.1.withPidx p.pidx)).trans (congrArg g hparse)
      rw [Qdma.procLoop]
      simp only
      split_ifs
      · exact congrArg g hparse
      · exact congrArg g hparse
      · exact hrcv
      · exact (ih _).trans ((congrArg g (hnext _)).trans hrcv)

/-- **Posting buffers again.** -/
theorem FlqPostFrame.refill (hg : FlqPostFrame g) (fill : ℕ → FillOutcome) (recycle : Bool)
    (count idx : ℕ) (d : Descq) : g (qdmaFlqRefill fill recycle count idx d).flq = g d.flq := by
  induction count generalizing idx d with
  | zero => rfl
  | succ count ih =>
      rw [qdmaFlqRefill]
      simp only
      generalize (if idx = d.flq.size then 0 else idx) = i
      have hrefilled : ∀ d : Descq, g (d.refilled i).flq = g d.flq :=
        fun d => hg.books d.flq _ _ _
      have hunmap : g (flqUnmapOne d i).flq = g d.flq := by
        unfold flqUnmapOne
        split_ifs
        · exact hg.slots d.flq _ _
        · rfl
      have hfill : g (flqFillOne (flqUnmapOne d i) i (fill i)).1.flq = g d.flq := by
        refine Eq.trans ?_ hunmap
        cases fill i with
        | ok pg dmaAddr => exact hg.slots (flqUnmapOne d i).flq _ _
        | noMem => rfl
        | mapErr => rfl
      split_ifs
      · exact (ih _ _).trans ((hrefilled _).trans (hg.slots d.flq _ _))
      · unfold Flq.countFailure
        split_ifs
        · exact (hg.books _ _ _ _).trans hfill
        · exact (hg.books _ _ _ _).trans hfill
      · exact (ih _ _).trans ((hrefilled _).trans hfill)

/-- A part that reads no slot. -/
theorem FlqFrame.toPost (hg : FlqFrame g) (hslots : ∀ q i s, g (q.setSdesc i s) = g q) :
    FlqPostFrame g :=
  ⟨hslots, fun q fail err info => hg.books q q.pktDlen fail err q.pidxPend info⟩

/-- The refill of a service call. -/
theorem FlqFrame.procRefill (hg : FlqFrame g) (hslots : ∀ q i s, g (q.setSdesc i s) = g q)
    (d : Descq) (pend : ℕ) (fill : ℕ → FillOutcome) :
    g (Qdma.procRefill d pend fill).flq = g d.flq := by
  unfold Qdma.procRefill
  simp only
  split_ifs
  · exact (hg.books _ _ _ _ _ _).trans ((hg.toPost hslots).refill _ _ _ _ _)
  · rfl

/-- The end of a service call. -/
theorem FlqFrame.procEnd (hg : FlqFrame g) (hslots : ∀ q i s, g (q.setSdesc i s) = g q)
    (p : Proc) (wrb pend : ℕ) (fill : ℕ → FillOutcome) :
    g (Qdma.procEnd p wrb pend fill).flq = g p.d.flq := by
  unfold Qdma.procEnd
  simp only
  split_ifs
  · exact (hg.procRefill hslots _ _ _).trans (hg.packetsProc _ _)
  · exact hg.procRefill hslots _ _ _
  · rfl

/-- **A service call**, where `g` does not read the slots. -/
theorem FlqRcvFrame.processCompletion (hg : FlqRcvFrame g) (hslots : ∀ q i s, g (q.setSdesc i s) = g q)
    (d : Descq) (budget : ℤ) (fill : ℕ → FillOutcome) :
    g (descqProcessCompletionStC2h d budget fill).1.flq = g d.flq := by
  unfold descqProcessCompletionStC2h
  simp only
  split_ifs
  · rfl
  · rfl
  · rfl
  · have hloop := hg.procLoop (procBudget budget
      (ringIdxDelta d.descWrb.wbPidx d.cidxWrb d.conf.rngszWrb)) { d := d, pidx := d.pidx }
    split
    · exact hloop
    · exact (hg.procEnd hslots _ _ _ _).trans hloop

end FreeList

end Qdma
