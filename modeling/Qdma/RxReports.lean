/-
# Reports on ST C2H queues

The books of such a queue speak of the bytes copied.  A read copies as many bytes as it takes
off `left` (`read_agrees`), whatever the state of the queue, and serving the pending requests
moves the books (`moves_packets`).
-/
import Qdma.Books
import Qdma.WakeUp

namespace Qdma

/-! ## What a read copies -/

/-- `log` is what a read copied on its way from `r` to `r'`, and it filled as much room. -/
structure Rd.Copies (r r' : Rd) (log : List Copy) : Prop where
  copied : r'.d.copied = r.d.copied ++ log
  count : r'.copied = r.copied + (copyBytes log).length
  room : ∀ sgl, Cursor sgl r.tsg r.tsgoff r.j → Cursor sgl r'.tsg r'.tsgoff r'.j ∧
    (copyBytes log).length + sglRoom r'.tsg r'.tsgoff = sglRoom r.tsg r.tsgoff

theorem Rd.Copies.refl (r : Rd) : r.Copies r [] :=
  ⟨(List.append_nil _).symm, rfl, fun _ h => ⟨h, Nat.zero_add _⟩⟩

theorem Rd.Copies.trans {r r' r'' : Rd} {log log' : List Copy} (h : r.Copies r' log)
    (h' : r'.Copies r'' log') : r.Copies r'' (log ++ log') := by
  constructor
  · rw [h'.copied, h.copied, List.append_assoc]
  · rw [h'.count, h.count, copyBytes_append, List.length_append, Nat.add_assoc]
  · intro sgl hcur
    obtain ⟨hcur', hroom⟩ := h.room sgl hcur
    obtain ⟨hcur'', hroom'⟩ := h'.room sgl hcur'
    refine ⟨hcur'', ?_⟩
    rw [copyBytes_append, List.length_append]
    omega

theorem copies_copyOut (page : ℕ → UInt8) (flen : ℕ) (r : Rd) :
    ∃ log, r.Copies (copyOut page r.tsg flen r) log := by
  obtain ⟨m, log, tsg, tsgoff, j, _, heq, hlog, hcur⟩ := copyOut_spec page r.tsg flen r rfl
  have hlen : (copyBytes log).length = m := by
    rw [hlog, length_pageBytes]
  refine ⟨log, ?_⟩
  rw [heq]
  refine ⟨rfl, by rw [hlen]; rfl, fun sgl h => ?_⟩
  obtain ⟨hcur', _, hroom⟩ := hcur sgl h
  rw [hlen]
  exact ⟨hcur', hroom⟩

theorem copies_nextBuf (r : Rd) : r.Copies r.nextBuf [] := by
  refine ⟨?_, rfl, fun _ h => ⟨h, Nat.zero_add _⟩⟩
  unfold Rd.nextBuf
  simp only
  split_ifs <;> exact (List.append_nil _).symm

theorem copies_readLoop (n : ℕ) (r : Rd) : ∃ log, r.Copies (readLoop n r) log := by
  induction n generalizing r with
  | zero => exact ⟨[], .refl r⟩
  | succ n ih =>
      rw [readLoop]
      by_cases h0 : r.tsg.isEmpty = true
      · rw [if_pos h0]
        exact ⟨[], .refl r⟩
      · rw [if_neg h0]
        obtain ⟨log, hlog⟩ := copies_copyOut (r.d.flq.sdesc r.pidx).page
          (r.d.flq.sdesc r.pidx).len { r with foff := 0 }
        have hlog' : r.Copies (copyOut (r.d.flq.sdesc r.pidx).page r.tsg
            (r.d.flq.sdesc r.pidx).len { r with foff := 0 }) log :=
          ⟨hlog.copied, hlog.count, hlog.room⟩
        simp only
        split_ifs
        · obtain ⟨rest, hrest⟩ := ih (copyOut (r.d.flq.sdesc r.pidx).page r.tsg
            (r.d.flq.sdesc r.pidx).len { r with foff := 0 }).nextBuf
          exact ⟨_, hlog'.trans ((copies_nextBuf _).trans hrest)⟩
        · exact ⟨log, hlog'⟩

/-- The end of a read copies nothing. -/
theorem readEnd_copied (r : Rd) (updatePidx refill : Bool) :
    (readEnd r updatePidx refill).copied = r.d.copied := by
  have hpost : PostFrame Descq.copied := ⟨fun _ _ _ => rfl, fun _ _ => rfl, fun _ _ => rfl⟩
  have hrefill : (readRefill r refill).copied = r.d.copied := by
    unfold readRefill
    split_ifs
    · exact hpost.refill _ _ _ _ _
    · rfl
  have hbells : ∀ d, (readBells d updatePidx).copied = d.copied := by
    intro d
    unfold readBells
    split_ifs <;> rfl
  unfold readEnd
  simp only [Descq.setFlq, hbells, hrefill]

/-- What a read leaves of a block that fits its request. -/
structure ReadAgrees (d : Descq) (cb : SgtReqCb) (d' : Descq) (cb' : SgtReqCb) : Prop where
  id : cb'.id = cb.id
  req : cb'.req = cb.req
  fits : CbFits cb'
  left : copyCount d d' + cb'.left = cb.left

/-- **A read copies as much as it takes off `left`.** -/
theorem read_agrees (d : Descq) {cb : SgtReqCb} (h : CbFits cb) (updatePidx refill : Bool) :
    ReadAgrees d cb (descqStC2hRead d cb updatePidx refill).1
      (descqStC2hRead d cb updatePidx refill).2.1 := by
  have hidle : ReadAgrees d cb d cb := by
    refine ⟨rfl, rfl, h, ?_⟩
    unfold copyCount
    rw [List.drop_length]
    exact Nat.zero_add _
  unfold descqStC2hRead
  simp only
  split_ifs
  · exact hidle
  · exact hidle
  · obtain ⟨log, hlog⟩ := copies_readLoop (ringIdxDelta d.pidx d.flq.pidxPend d.flq.size)
      { d := d, pidx := d.flq.pidxPend, tsg := cb.req.sgl.drop cb.sgIdx,
        tsgoff := cb.sgOffset, j := cb.sgIdx }
    obtain ⟨hcur, hroom⟩ := hlog.room cb.req.sgl h.cursor
    have hend := readEnd_copied (readLoop (ringIdxDelta d.pidx d.flq.pidxPend d.flq.size)
      { d := d, pidx := d.flq.pidxPend, tsg := cb.req.sgl.drop cb.sgIdx,
        tsgoff := cb.sgOffset, j := cb.sgIdx }) updatePidx refill
    have hcount := hlog.count
    have hcopied := hlog.copied
    generalize readLoop (ringIdxDelta d.pidx d.flq.pidxPend d.flq.size)
      { d := d, pidx := d.flq.pidxPend, tsg := cb.req.sgl.drop cb.sgIdx,
        tsgoff := cb.sgOffset, j := cb.sgIdx } = r at hcur hroom hend hcount hcopied
    simp only at hcount hroom
    have hroom' : (copyBytes log).length + sglRoom r.tsg r.tsgoff = cb.left :=
      hroom.trans h.left_eq.symm
    -- the room that is left goes down by what is copied
    have hleft : u32Sub cb.left r.copied = sglRoom r.tsg r.tsgoff := by
      rw [u32Sub_of_le h.lt (by omega)]
      omega
    have hdrop := hcur.tsg_eq
    refine ⟨rfl, rfl, ⟨?_, ?_, ?_⟩, ?_⟩
    · unfold CursorOk
      simp only
      rw [← hdrop]
      exact hcur
    · unfold cbRoom
      simp only
      rw [hleft, hdrop]
    · exact Nat.mod_lt _ (Nat.two_pow_pos 32)
    · unfold copyCount
      rw [hend, hcopied, List.drop_left']
      · simp only [hleft]
        exact hroom'
      · rfl

/-! ## Serving the pending reads -/

@[simp] theorem copiedFor_nil (i : ℕ) : copiedFor [] i = 0 := rfl

theorem copiedFor_append (a b : List (ℕ × ℕ)) (i : ℕ) :
    copiedFor (a ++ b) i = copiedFor a i + copiedFor b i := by
  unfold copiedFor
  rw [List.filter_append, List.map_append, List.sum_append]

theorem copiedFor_cons (id n : ℕ) (log : List (ℕ × ℕ)) (i : ℕ) :
    copiedFor ((id, n) :: log) i = (if i = id then n else 0) + copiedFor log i := by
  unfold copiedFor
  split_ifs with h
  · rw [List.filter_cons_of_pos (by simp [h]), List.map_cons, List.sum_cons]
  · rw [List.filter_cons_of_neg (by simpa using Ne.symm h), Nat.zero_add]

/-- A read that has got all is handed back as a success. -/
theorem handedBack_finish {cb : SgtReqCb} (hfp : cb.req.fpDone = false) (hleft : cb.left = 0) :
    HandedBack (SgtReqCb.Agrees true) (cb.finish 0) := by
  constructor
  · show (if cb.req.fpDone ∧ cb.offset ≠ cb.req.count then einval else (0 : ℤ)) = 0
    rw [if_neg]
    rw [hfp]
    exact fun h => Bool.noConfusion h.1
  · intro n hn
    have hsum : n + cb.left = cb.req.count := hn.1
    show n = cb.req.count
    omega

/-- Serving one read that gets on. -/
theorem packets_cons {cb : SgtReqCb} (cbs : List SgtReqCb) {d d' : Descq} {cb' : SgtReqCb}
    {rv : ℤ} (h0 : cb.left ≠ 0) (hread : descqStC2hRead d cb false false = (d', cb', rv))
    (hrv : ¬ rv < 0) :
    packetsProcDflt (cb :: cbs) d = (if cb'.left = 0 then
        packetsProcDflt cbs (qdmaSgtReqDone (d'.setCb cb') cb' 0) else d'.setCb cb') ∧
      packetsCopies (cb :: cbs) d = (cb'.id, copyCount d d') ::
        if cb'.left = 0 then packetsCopies cbs (qdmaSgtReqDone (d'.setCb cb') cb' 0)
        else [] := by
  rw [packetsProcDflt, packetsCopies, if_neg h0, if_neg h0]
  simp only [hread, hrv, if_false]
  exact ⟨trivial, trivial⟩

/-- What serving `cbs` leaves. -/
structure PacketsDone (sent : ℕ → ℕ) (cbs : List SgtReqCb) (d : Descq) : Prop where
  moves : Moves (SgtReqCb.Agrees true) sent
    (fun i => sent i + copiedFor (packetsCopies cbs d) i) cbs (packetsProcDflt cbs d).pendList
    d.finished (packetsProcDflt cbs d).finished
  workList : (packetsProcDflt cbs d).workList = []
  waits : ∀ c ∈ (packetsProcDflt cbs d).pendList, c ∈ cbs ∨ 0 < c.left

/-- **Serving the pending reads** moves the books. -/
theorem moves_packets (cbs : List SgtReqCb) (d : Descq) (sent : ℕ → ℕ)
    (hpend : d.pendList = cbs) (hwork : d.workList = []) (hnd : (cbs.map SgtReqCb.id).Nodup)
    (hfits : ∀ c ∈ cbs, CbFits c ∧ c.req.fpDone = false) : PacketsDone sent cbs d := by
  induction cbs generalizing d sent with
  | nil =>
      refine ⟨?_, hwork, fun c hc => ?_⟩
      · show Moves _ sent (fun i => sent i + 0) [] d.pendList d.finished d.finished
        rw [hpend]
        exact .refl _ _
      · have hc' : c ∈ d.pendList := hc
        rw [hpend] at hc'
        exact .inl hc'
  | cons cb cbs ih =>
      obtain ⟨hnot, hnd'⟩ := List.nodup_cons.mp hnd
      obtain ⟨hfit, hfp⟩ := hfits cb List.mem_cons_self
      have hmem : cb ∈ cb :: cbs := List.mem_cons_self
      have hne : ∀ a ∈ cbs, a.id ≠ cb.id :=
        fun a ha heq => hnot (heq ▸ List.mem_map_of_mem ha)
      have hreqs : ∀ {e : Descq}, e.pendList = cb :: cbs → e.workList = [] →
          (e.reqs.map SgtReqCb.id).Nodup := by
        intro e hp hw
        unfold Descq.reqs
        rw [hp, hw, List.append_nil]
        exact hnd
      by_cases h0 : cb.left = 0
      · -- a read without a byte to get ends the loop
        have heq : packetsProcDflt (cb :: cbs) d = d.withLists d.workList cbs
            (d.finished ++ [{ cb := cb.finish 0, held := d.held }]) := by
          rw [packetsProcDflt, if_pos h0]
          exact reqDone_pend_head 0 hpend (hreqs hpend hwork)
        have hcopies : packetsCopies (cb :: cbs) d = [] := by
          rw [packetsCopies, if_pos h0]
        refine ⟨?_, ?_, fun c hc => ?_⟩
        · rw [heq, hcopies]
          refine Moves.close hmem ⟨rfl, rfl, fun hbal => ?_⟩ (handedBack_finish hfp h0)
            (fun i _ => rfl) (fun a ha => ⟨List.mem_cons_of_mem _ ha, hne a ha⟩)
            (fun a ha => (List.mem_cons.mp ha).imp_left (fun heq => by rw [heq]))
          exact ⟨hbal.1, ⟨hbal.2.1.cursor, hbal.2.1.left_eq, hbal.2.1.lt⟩, hbal.2.2⟩
        · rw [heq]
          exact hwork
        · rw [heq] at hc
          exact .inl (List.mem_cons_of_mem _ hc)
      · have hpart := reqPart_rxFrame.read d cb false false
        have hagree := read_agrees d hfit false false
        have hrv := read_rv d cb false false (by rw [← hfit.left_eq]; exact h0)
        have hcons := @packets_cons cb cbs d
        generalize descqStC2hRead d cb false false = r at hpart hagree hrv hcons
        obtain ⟨d1, cb', rv⟩ := r
        simp only at hpart hagree hrv
        obtain ⟨hproc, hcopies⟩ := hcons h0 rfl hrv
        obtain ⟨hw1, hp1⟩ := Prod.mk.inj hpart
        obtain ⟨hp1, hf1⟩ := Prod.mk.inj hp1
        have hpend' : (d1.setCb cb').pendList = cb' :: cbs := by
          show updCb cb' d1.pendList = _
          rw [hp1, hpend]
          exact updCb_head hagree.id (hagree.id ▸ hnot)
        have hwork' : (d1.setCb cb').workList = [] := by
          show updCb cb' d1.workList = _
          rw [hw1, hwork]
          rfl
        have hfin' : (d1.setCb cb').finished = d.finished := hf1
        -- the bytes copied are those taken off `left`
        have hfollows : ∀ {sent' : ℕ → ℕ} {c : SgtReqCb},
            sent' cb.id = sent cb.id + copyCount d d1 → c.id = cb'.id → c.req = cb'.req →
            CbFits c → c.left = cb'.left → Follows (SgtReqCb.Agrees true) sent sent' cb c := by
          intro sent' c hsent hid hreq hfit' hleft
          refine ⟨hid.trans hagree.id, hreq.trans hagree.req, fun hbal => ?_⟩
          have hsum : sent cb.id + cb.left = cb.req.count := hbal.1
          have hl := hagree.left
          refine ⟨?_, hfit', ?_⟩
          · rw [hsent, hleft, hreq, hagree.req]
            omega
          · rw [hreq, hagree.req]
            exact hfp
        by_cases hleft : cb'.left = 0
        · rw [if_pos hleft] at hproc hcopies
          have hnd1 : ((d1.setCb cb').reqs.map SgtReqCb.id).Nodup := by
            unfold Descq.reqs
            rw [hpend', hwork', List.append_nil, List.map_cons, hagree.id]
            exact hnd
          have hdone := reqDone_pend_head 0 hpend' hnd1
          rw [hdone, hwork', hfin'] at hproc hcopies
          generalize hd2 : (d1.setCb cb').withLists [] cbs
            (d.finished ++ [{ cb := cb'.finish 0, held := (d1.setCb cb').held }]) = d2
            at hproc hcopies
          set sent1 : ℕ → ℕ := fun i => sent i + if i = cb.id then copyCount d d1 else 0
            with hsent1
          have hrest := ih d2 sent1 (by rw [← hd2]; rfl) (by rw [← hd2]; rfl) hnd'
            (fun c hc => hfits c (List.mem_cons_of_mem _ hc))
          have hfirst : Moves (SgtReqCb.Agrees true) sent sent1 (cb :: cbs) cbs d.finished
              d2.finished := by
            rw [← hd2]
            refine Moves.close (f := { cb := cb'.finish 0, held := (d1.setCb cb').held }) hmem
              (hfollows ?_ rfl rfl ?_ rfl)
              (handedBack_finish (by rw [hagree.req]; exact hfp) hleft)
              (fun i hi => ?_) (fun a ha => ⟨List.mem_cons_of_mem _ ha, hne a ha⟩)
              (fun a ha => (List.mem_cons.mp ha).imp_left (fun heq => by rw [heq]))
            · rw [hsent1]
              simp
            · exact ⟨hagree.fits.cursor, hagree.fits.left_eq, hagree.fits.lt⟩
            · rw [hsent1]
              simp only [hi, if_false, Nat.add_zero]
          have hsum : (fun i => sent i + copiedFor (packetsCopies (cb :: cbs) d) i)
              = fun i => sent1 i + copiedFor (packetsCopies cbs d2) i := by
            funext i
            rw [hcopies, hagree.id, copiedFor_cons, hsent1, Nat.add_assoc]
          constructor
          · rw [hsum, hproc]
            exact hfirst.trans hrest.moves
          · rw [hproc]
            exact hrest.workList
          · rw [hproc]
            exact fun c hc => (hrest.waits c hc).imp_left (List.mem_cons_of_mem _)
        · rw [if_neg hleft] at hproc hcopies
          have hsum : ∀ i, sent i + copiedFor (packetsCopies (cb :: cbs) d) i
              = sent i + if i = cb.id then copyCount d d1 else 0 := by
            intro i
            rw [hcopies, hagree.id, copiedFor_cons, copiedFor_nil, Nat.add_zero]
          constructor
          · rw [hproc, hpend', hfin']
            refine Moves.replace hmem (hfollows ?_ rfl rfl hagree.fits rfl) (fun i hi => ?_)
              (fun a ha => ?_) (fun a ha => ?_)
            · simp only [hsum, if_true]
            · simp only [hsum, hi, if_false, Nat.add_zero]
            · refine (List.mem_cons.mp ha).imp_right (fun ha => ?_)
              exact ⟨List.mem_cons_of_mem _ ha, hne a ha⟩
            · rw [List.map_cons, List.mem_cons, hagree.id]
              rcases List.mem_cons.mp ha with rfl | ha
              · exact .inl rfl
              · exact .inr (List.mem_map_of_mem ha)
          · rw [hproc]
            exact hwork'
          · rw [hproc, hpend']
            intro c hc
            rcases List.mem_cons.mp hc with rfl | hc
            · exact .inr (Nat.pos_of_ne_zero hleft)
            · exact .inl (List.mem_cons_of_mem _ hc)

/-- **A service call** moves the books. -/
theorem packetsDone_process {d : Descq} (budget : ℤ) (fill : ℕ → FillOutcome) (sent : ℕ → ℕ)
    (hwork : d.workList = []) (hnd : (d.pendList.map SgtReqCb.id).Nodup)
    (hfits : ∀ c ∈ d.pendList, CbFits c ∧ c.req.fpDone = false) :
    let d' := (descqProcessCompletionStC2h d budget fill).1
    Moves (SgtReqCb.Agrees true) sent (fun i => sent i + copiedFor (processCopies d budget) i)
        d.pendList d'.pendList d.finished d'.finished ∧
      d'.workList = [] ∧ ∀ c ∈ d'.pendList, c ∈ d.pendList ∨ 0 < c.left := by
  have hstill : ∀ {d' : Descq} {log : List (ℕ × ℕ)}, d'.reqPart = d.reqPart → log = [] →
      Moves (SgtReqCb.Agrees true) sent (fun i => sent i + copiedFor log i)
        d.pendList d'.pendList d.finished d'.finished ∧
      d'.workList = [] ∧ ∀ c ∈ d'.pendList, c ∈ d.pendList ∨ 0 < c.left := by
    rintro d' log hpart rfl
    obtain ⟨hw, hp⟩ := Prod.mk.inj hpart
    obtain ⟨hp, hf⟩ := Prod.mk.inj hp
    refine ⟨?_, hw.trans hwork, fun c hc => .inl (hp ▸ hc)⟩
    rw [hp, hf]
    exact .refl _ _
  unfold descqProcessCompletionStC2h processCopies
  simp only
  by_cases herr : d.err = true
  · rw [if_pos herr, if_pos herr]
    exact hstill rfl rfl
  rw [if_neg herr, if_neg herr]
  by_cases hidle : (d.conf.fpDescqC2hPacket.isNone && d.pendList.isEmpty
    && d.workList.isEmpty) = true
  · rw [if_pos hidle, if_pos hidle]
    exact hstill rfl rfl
  rw [if_neg hidle, if_neg hidle]
  by_cases hnew : ringIdxDelta d.descWrb.wbPidx d.cidxWrb d.conf.rngszWrb = 0
  · rw [if_pos hnew, if_pos hnew]
    exact hstill rfl rfl
  rw [if_neg hnew, if_neg hnew]
  have hloop := reqPart_loopFrame.procLoop (procBudget budget
    (ringIdxDelta d.descWrb.wbPidx d.cidxWrb d.conf.rngszWrb)) { d := d, pidx := d.pidx }
  generalize procLoop (procBudget budget (ringIdxDelta d.descWrb.wbPidx d.cidxWrb
    d.conf.rngszWrb)) { d := d, pidx := d.pidx } = p at hloop
  cases hret : p.ret with
  | some rv => exact hstill hloop rfl
  | none =>
      simp only
      unfold procEnd
      by_cases hcnt : p.procCnt ≠ 0
      · have hend : ∀ e : Descq, (descqWrbCidxUpdate (procRefill e d.flq.pidxPend fill)
            (procRefill e d.flq.pidxPend fill).cidxWrbPend).reqPart = e.reqPart :=
          fun e => reqPart_rxFrame.procRefill e _ fill
        rw [if_pos hcnt]
        simp only
        by_cases hdflt : p.d.conf.fpDescqC2hPacket.isNone = true
        · -- the driver's own handler reads for the pending requests
          rw [if_pos hdflt, if_pos ⟨hcnt, hdflt⟩]
          obtain ⟨hw, hp⟩ := Prod.mk.inj hloop
          obtain ⟨hp, hf⟩ := Prod.mk.inj hp
          have hdone := moves_packets p.d.pendList
            { p.d with pidxWrb := d.descWrb.wbPidx, pidx := p.pidx } sent rfl
            (hw.trans hwork) (by rw [hp]; exact hnd) (by rw [hp]; exact hfits)
          have hpart := hend (qdmaC2hPacketsProcDflt
            { p.d with pidxWrb := d.descWrb.wbPidx, pidx := p.pidx })
          obtain ⟨hw', hp'⟩ := Prod.mk.inj hpart
          obtain ⟨hp', hf'⟩ := Prod.mk.inj hp'
          refine ⟨?_, hw'.trans hdone.workList, fun c hc => ?_⟩
          · have hm := hdone.moves
            rw [hp', hf', ← hp, ← hf]
            exact hm
          · rw [hp'] at hc
            rw [← hp]
            exact hdone.waits c hc
        · rw [if_neg hdflt, if_neg (fun h => hdflt h.2)]
          exact hstill ((hend _).trans hloop) rfl
      · rw [if_neg hcnt, if_neg (fun h => hcnt h.1)]
        exact hstill hloop rfl

/-! ## Steps -/

/-- **The books of an ST C2H queue.** -/
structure RxDeskInv (x : Desk) : Prop extends DeskInv x where
  kind : x.sys.q.isRx = true
  workList : x.sys.q.workList = []
  waits : ∀ c ∈ x.sys.live, 0 < c.left

theorem sent_rx {x : Desk} (h : x.sys.q.isRx = true) : x.sent = copiedFor x.copied := by
  funext i
  unfold Desk.sent
  rw [if_pos h]

/-- What an open block says. -/
theorem RxDeskInv.agrees {x : Desk} (h : RxDeskInv x) {c : SgtReqCb} (hc : c ∈ x.sys.live) :
    x.sent c.id + c.left = c.req.count ∧ CbFits c ∧ c.req.fpDone = false := by
  have hagree := (h.books.live c hc).2
  rw [h.kind] at hagree
  exact hagree

/-- A step that leaves the lists alone and copies nothing for their requests. -/
theorem RxDeskInv.still {x : Desk} (h : RxDeskInv x) {l : QLabel} (hl : l.Traffic)
    (hsame : SameNotes x (x.step l)) (hpart : (x.step l).sys.q.reqPart = x.sys.q.reqPart)
    (hcopied : (x.step l).copied = x.copied) : RxDeskInv (x.step l) := by
  have hkind := (isRx_step x hl).trans h.kind
  obtain ⟨hw, hp⟩ := Prod.mk.inj hpart
  obtain ⟨hp, hf⟩ := Prod.mk.inj hp
  have hreqs : (x.step l).sys.q.reqs = x.sys.q.reqs := by
    unfold Descq.reqs
    rw [hw, hp]
  refine ⟨h.toDeskInv.moves (h.ids.step l) hsame ?_, hkind, hw.trans h.workList, ?_⟩
  · rw [hreqs, hf, sent_rx h.kind, sent_rx hkind, hcopied]
    exact .refl _ _
  · unfold QSys.live
    rw [hsame.parked, hreqs]
    exact h.waits

theorem RxDeskInv.service {x : Desk} (h : RxDeskInv x) (budget : ℤ)
    (fill : ℕ → FillOutcome) : RxDeskInv (x.step (.service budget fill)) := by
  have hkind := (isRx_step x (l := .service budget fill) trivial).trans h.kind
  have hreqs : x.sys.q.reqs = x.sys.q.pendList := by
    unfold Descq.reqs
    rw [h.workList, List.append_nil]
  have hin : ∀ c ∈ x.sys.q.pendList, c ∈ x.sys.live :=
    fun c hc => List.mem_append_right _ (hreqs ▸ hc)
  obtain ⟨hm, hwork, hwaits⟩ := packetsDone_process budget fill x.sent h.workList
    h.ids.toServe.2.nodup (fun c hc => (h.agrees (hin c hc)).2)
  have hq : (x.step (.service budget fill)).sys.q
      = (descqProcessCompletionStC2h x.sys.q budget fill).1 := if_pos h.kind
  have hreqs' : (x.step (.service budget fill)).sys.q.reqs
      = (x.step (.service budget fill)).sys.q.pendList := by
    unfold Descq.reqs
    rw [hq, hwork, List.append_nil]
  have hsent : (x.step (.service budget fill)).sent
      = fun i => x.sent i + copiedFor (processCopies x.sys.q budget) i := by
    have hcopied : (x.step (.service budget fill)).copied
        = x.copied ++ processCopies x.sys.q budget :=
      congrArg (x.copied ++ ·) (if_pos h.kind)
    funext i
    rw [sent_rx hkind, sent_rx h.kind, hcopied, copiedFor_append]
  refine ⟨h.toDeskInv.moves (h.ids.step (.service budget fill))
    ⟨isRx_step x trivial, rfl, rfl, rfl, rfl, rfl, le_rfl⟩ ?_, hkind, by rw [hq]; exact hwork, ?_⟩
  · rw [h.kind, hsent, hreqs, hreqs', hq]
    exact hm
  · intro c hc
    unfold QSys.live at hc
    rw [hreqs', hq] at hc
    rcases List.mem_append.mp hc with hc | hc
    · exact h.waits c (List.mem_append_left _ hc)
    · rcases hwaits c hc with hc | hpos
      · exact h.waits c (hin c hc)
      · exact hpos

/-- **A read is submitted.** -/
theorem RxDeskInv.submit {x : Desk} (h : RxDeskInv x) {req : Request} {mapped : Bool}
    (hok : Honest x (.submit req mapped)) : RxDeskInv (x.step (.submit req mapped)) := by
  obtain ⟨htotal, hfp, hzero⟩ := hok
  obtain ⟨hasked, hcopied, hret, hacc⟩ := noteSubmit_spec x req mapped
  have hids := h.ids.step (.submit req mapped)
  have hkind' := (isRx_step x (l := .submit req mapped) trivial).trans h.kind
  obtain ⟨hnew, _⟩ := h.ids.new
  have hsent : ∀ i, (x.step (.submit req mapped)).sent i = x.sent i
      + if i = x.sys.nreq then copyCount x.sys.q (x.sys.submit req mapped).q else 0 := by
    intro i
    rw [sent_rx h.kind, sent_rx hkind']
    show copiedFor (x.noteSubmit req mapped).copied i = _
    rw [hcopied, copiedFor_append, copiedFor_cons, copiedFor_nil, Nat.add_zero]
  have hother : ∀ i ≠ x.sys.nreq, (x.step (.submit req mapped)).sent i = x.sent i := by
    intro i hi
    rw [hsent, if_neg hi, Nat.add_zero]
  by_cases hwrite : req.write = true
  · -- a write is refused
    have hrv : x.sys.submitReturn req mapped = some einval := by
      unfold QSys.submitReturn
      rw [if_pos h.kind, if_pos hwrite]
    have hsys : (x.step (.submit req mapped)).sys = { x.sys with nreq := x.sys.nreq + 1 } := by
      show x.sys.submit req mapped = _
      unfold QSys.submit
      simp only [h.kind, hwrite, if_true]
    have hnone : (x.step (.submit req mapped)).sent x.sys.nreq = 0 := by
      have hq : (x.sys.submit req mapped).q = x.sys.q := (congrArg QSys.q hsys).trans rfl
      rw [hsent, if_pos rfl, h.unsent _ le_rfl, hq]
      unfold copyCount
      rw [List.drop_length]
      rfl
    have hcount : req.count ≠ 0 := by
      intro h0
      have hdir := (hzero h0).2.1
      have hrx : (x.sys.q.conf.st && x.sys.q.conf.c2h) = true := h.kind
      rw [hwrite, (Bool.and_eq_true_iff.mp hrx).2] at hdir
      exact Bool.noConfusion hdir
    refine ⟨h.toDeskInv.submit hids ⟨?_, hasked, ?_, ?_, hother, ?_, ?_, ?_, ?_, ?_⟩, hkind', ?_, ?_⟩
    · rw [hkind', h.kind]
    · rw [hsys]
    · rw [hsys]
    · rw [hsys]
      exact fun c hc => .inl hc
    · rw [hsys]
      exact fun c hc => hc
    · intro r hr
      refine (hret r hr).imp_right ?_
      rintro ⟨rv, hrv', rfl⟩
      rw [hrv] at hrv'
      cases hrv'
      refine ⟨rfl, ?_, ?_⟩
      · rw [hsys]
        exact hnew
      · rw [hnone]
        exact .error (show einval < 0 by decide) (Ne.symm hcount)
    · rw [hsys]
      exact fun id hid => .inl hid
    · intro id hid
      refine (hacc id hid).imp_right ?_
      rintro ⟨rfl, ⟨rv, hrv', h0⟩ | ⟨hnone', _⟩⟩
      · rw [hrv] at hrv'
        cases hrv'
        exact absurd h0 (by decide)
      · rw [hrv] at hnone'
        cases hnone'
    · rw [hsys]
      exact h.workList
    · rw [hsys]
      exact h.waits
  · -- what is there is read
    have hfp' : req.fpDone = false := by
      by_contra hne
      exact hwrite (hfp h.kind (Bool.eq_true_of_not_eq_false hne))
    have hread := read_agrees x.sys.q (cbFits_new htotal.symm x.sys.nreq) true true
    have hpart := reqPart_rxFrame.read x.sys.q (req.newC2hCb x.sys.nreq) true true
    have hrv : x.sys.submitReturn req mapped
        = if (submitStC2hRead x.sys.q x.sys.nreq req).2.left = 0 then some (req.count : ℤ)
          else none := by
      unfold QSys.submitReturn
      rw [if_pos h.kind, if_neg hwrite]
    have hsys : (x.step (.submit req mapped)).sys
        = { x.sys with
            q := (submitStC2hRead x.sys.q x.sys.nreq req).1
            nreq := x.sys.nreq + 1
            parked := if (submitStC2hRead x.sys.q x.sys.nreq req).2.left = 0 then x.sys.parked
              else x.sys.parked ++ [(submitStC2hRead x.sys.q x.sys.nreq req).2] } := by
      show x.sys.submit req mapped = _
      unfold QSys.submit
      rw [if_pos h.kind, if_neg hwrite]
      simp only
      split_ifs <;> rfl
    have hread' : ReadAgrees x.sys.q (req.newC2hCb x.sys.nreq)
        (submitStC2hRead x.sys.q x.sys.nreq req).1 (submitStC2hRead x.sys.q x.sys.nreq req).2 :=
      hread
    have hpart' : (submitStC2hRead x.sys.q x.sys.nreq req).1.reqPart = x.sys.q.reqPart := hpart
    generalize submitStC2hRead x.sys.q x.sys.nreq req = r at hread' hpart' hrv hsys
    obtain ⟨q', cb⟩ := r
    simp only at hread' hpart' hrv hsys
    obtain ⟨hw, hp⟩ := Prod.mk.inj hpart'
    obtain ⟨hp, hf⟩ := Prod.mk.inj hp
    have hreqs : q'.reqs = x.sys.q.reqs := by
      unfold Descq.reqs
      rw [hw, hp]
    have hself : (x.step (.submit req mapped)).sent x.sys.nreq = copyCount x.sys.q q' := by
      have hq : (x.sys.submit req mapped).q = q' := (congrArg QSys.q hsys).trans rfl
      rw [hsent, if_pos rfl, h.unsent _ le_rfl, hq, Nat.zero_add]
    have hsum : copyCount x.sys.q q' + cb.left = req.count := hread'.left
    have hlive : (x.step (.submit req mapped)).sys.live
        = (if cb.left = 0 then x.sys.parked else x.sys.parked ++ [cb]) ++ x.sys.q.reqs := by
      rw [hsys]
      unfold QSys.live
      rw [hreqs]
    have hinlive : ∀ c ∈ (x.step (.submit req mapped)).sys.live,
        c ∈ x.sys.live ∨ c = cb ∧ cb.left ≠ 0 := by
      rw [hlive]
      intro c hc
      unfold QSys.live
      rcases List.mem_append.mp hc with hc | hc
      · split_ifs at hc with h0
        · exact .inl (List.mem_append_left _ hc)
        · rcases List.mem_append.mp hc with hc | hc
          · exact .inl (List.mem_append_left _ hc)
          · exact .inr ⟨List.mem_singleton.mp hc, h0⟩
      · exact .inl (List.mem_append_right _ hc)
    refine ⟨h.toDeskInv.submit hids ⟨?_, hasked, ?_, ?_, hother, ?_, ?_, ?_, ?_, ?_⟩, hkind', ?_, ?_⟩
    · rw [hkind', h.kind]
    · rw [hsys]
    · rw [hsys]
      exact hf
    · intro c hc
      refine (hinlive c hc).imp_right ?_
      rintro ⟨rfl, _⟩
      refine ⟨hread'.id, hread'.req, ?_⟩
      rw [h.kind, hself]
      refine ⟨?_, hread'.fits, ?_⟩
      · rw [hread'.req]
        exact hsum
      · rw [hread'.req]
        exact hfp'
    · rw [hsys]
      intro c hc
      show c ∈ q'.reqs
      rwa [hreqs]
    · intro r hr
      refine (hret r hr).imp_right ?_
      rintro ⟨rv, hrv', rfl⟩
      rw [hrv] at hrv'
      split_ifs at hrv' with h0
      cases hrv'
      refine ⟨rfl, ?_, ?_⟩
      · rw [hlive, if_pos h0]
        exact hnew
      · rw [hself]
        exact .success (by omega)
    · rw [hsys]
      exact fun id hid => .inl hid
    · intro id hid
      refine (hacc id hid).imp_right ?_
      rintro ⟨rfl, _⟩
      exact ⟨rfl, fun hcontra => by rw [hfp'] at hcontra; cases hcontra⟩
    · rw [hsys]
      exact hw.trans h.workList
    · intro c hc
      rcases hinlive c hc with hc | ⟨rfl, h0⟩
      · exact h.waits c hc
      · exact Nat.pos_of_ne_zero h0

/-- **The second locked section** of a read. -/
theorem RxDeskInv.pend {x : Desk} (h : RxDeskInv x) {id : ℕ} {cb : SgtReqCb}
    (hfind : x.sys.parked.find? (fun c => c.id = id) = some cb) :
    RxDeskInv (x.step (.pend id)) := by
  have hids := h.ids.step (.pend id)
  have hkind' := (isRx_step x (l := .pend id) trivial).trans h.kind
  have hpark : cb ∈ x.sys.parked := List.mem_of_find?_eq_some hfind
  have hcb : cb ∈ x.sys.live := List.mem_append_left _ hpark
  obtain ⟨hsum, _, hfp⟩ := h.agrees hcb
  have hasked := (h.books.live cb hcb).1
  have hlt : cb.id < x.sys.nreq := by
    by_contra hge
    have hnone := h.ids.fresh cb.id (by omega)
    have := List.count_pos_iff.mpr (List.mem_map_of_mem (f := SgtReqCb.id) hpark)
    omega
  have hstep : x.step (.pend id) = { x.notePend cb with sys := x.sys.pend cb } := by
    unfold Desk.step Desk.note QSys.step
    simp only [hfind]
  have hoff : ∀ i ∈ (x.sys.parked.filter (fun c => c.id ≠ cb.id)).map SgtReqCb.id,
      i ≠ cb.id := by
    intro i hi
    obtain ⟨c, hc, rfl⟩ := List.mem_map.mp hi
    exact of_decide_eq_true (List.mem_filter.mp hc).2
  have hask : ∀ req, x.asked cb.id = some req → req = cb.req := by
    intro req hreq
    rw [hasked] at hreq
    exact (Option.some.inj hreq).symm
  cases honline : x.sys.q.online with
  | true =>
      -- it joins `pend_list`
      have hpend : submitStC2hPend x.sys.q cb = (descqWrbCidxUpdate
          { x.sys.q with pendList := x.sys.q.pendList ++ [cb] } x.sys.q.cidxWrbPend, none) := by
        unfold submitStC2hPend
        rw [if_pos honline]
      have hsys : (x.step (.pend id)).sys = { x.sys with
          q := descqWrbCidxUpdate { x.sys.q with pendList := x.sys.q.pendList ++ [cb] }
            x.sys.q.cidxWrbPend
          parked := x.sys.parked.filter (fun c => c.id ≠ cb.id)
          waiters := x.sys.waiters ++ [cb.id] } := by
        rw [hstep]
        show x.sys.pend cb = _
        unfold QSys.pend QSys.sleep
        simp only [hpend, hfp, Bool.false_eq_true, if_false]
      have hnotes : x.step (.pend id)
          = { x with sys := (x.step (.pend id)).sys, accepted := x.accepted ++ [cb.id] } := by
        rw [hstep]
        unfold Desk.notePend
        rw [hpend]
        rfl
      have hreqs : (x.step (.pend id)).sys.q.reqs = x.sys.q.pendList ++ [cb] := by
        rw [hsys]
        show (x.sys.q.pendList ++ [cb]) ++ x.sys.q.workList = _
        rw [h.workList, List.append_nil]
      have hold : x.sys.q.reqs = x.sys.q.pendList := by
        unfold Descq.reqs
        rw [h.workList, List.append_nil]
      have hkeep : ∀ i, x.sys.q.Has i → (x.step (.pend id)).sys.q.Has i := by
        rintro i (hi | hi)
        · refine .inl ?_
          rw [hold] at hi
          rw [hreqs, List.map_append]
          exact List.mem_append_left _ hi
        · exact .inr (by rw [hsys]; exact hi)
      have hself : (x.step (.pend id)).sys.q.Has cb.id := by
        refine .inl ?_
        rw [hreqs, List.map_append]
        exact List.mem_append_right _ (List.mem_singleton.mpr rfl)
      have hlive : ∀ c ∈ (x.step (.pend id)).sys.live, c ∈ x.sys.live := by
        intro c hc
        unfold QSys.live at hc ⊢
        rw [hreqs, hsys] at hc
        rcases List.mem_append.mp hc with hc | hc
        · exact List.mem_append_left _ (List.mem_of_mem_filter hc)
        · rcases List.mem_append.mp hc with hc | hc
          · exact List.mem_append_right _ (hold ▸ hc)
          · exact List.mem_append_left _ (List.mem_singleton.mp hc ▸ hpark)
      refine ⟨h.toDeskInv.concluded hids ⟨?_, ?_, ?_, ?_, ?_, hlive, ?_, ?_, ?_⟩, hkind', ?_,
        fun c hc => h.waits c (hlive c hc)⟩
      · rw [hkind', h.kind]
      · rw [hnotes]
      · rw [hsys]
      · rw [hsys]
        rfl
      · rw [sent_rx hkind', sent_rx h.kind, hnotes]
      · rw [hnotes]
        exact fun r hr => .inl hr
      · intro i hi
        have hi' : i ∈ x.sys.waiters ++ [cb.id] := by
          rw [hsys] at hi
          exact hi
        rcases List.mem_append.mp hi' with hi' | hi'
        · exact ⟨hkeep i (h.waiting i hi').1, .inl hi'⟩
        · rw [List.mem_singleton.mp hi']
          refine ⟨hself, .inr (fun req hreq => ?_)⟩
          rw [hask req hreq]
          exact hfp
      · intro i hi
        rw [hnotes] at hi
        rcases List.mem_append.mp hi with hi | hi
        · exact ⟨.inl hi, fun req hreq hfp' => hkeep i ((h.kept i hi).2 req hreq hfp')⟩
        · rw [List.mem_singleton.mp hi]
          exact ⟨.inr hlt, fun _ _ _ => hself⟩
      · rw [hsys]
        exact h.workList
  | false =>
      -- the queue is offline: an error, though some bytes may have been copied
      have hpend : submitStC2hPend x.sys.q cb = (x.sys.q, some einval) := by
        unfold submitStC2hPend
        rw [if_neg (by rw [honline]; decide)]
      have hsys : (x.step (.pend id)).sys
          = { x.sys with parked := x.sys.parked.filter (fun c => c.id ≠ cb.id) } := by
        rw [hstep]
        show x.sys.pend cb = _
        unfold QSys.pend
        simp only [hpend]
      have hnotes : x.step (.pend id) = { x with
          sys := (x.step (.pend id)).sys, returned := x.returned ++ [(cb.id, einval)] } := by
        rw [hstep]
        unfold Desk.notePend
        rw [hpend]
        rfl
      have hlive : ∀ c ∈ (x.step (.pend id)).sys.live, c ∈ x.sys.live := by
        intro c hc
        unfold QSys.live at hc ⊢
        rw [hsys] at hc
        rcases List.mem_append.mp hc with hc | hc
        · exact List.mem_append_left _ (List.mem_of_mem_filter hc)
        · exact List.mem_append_right _ hc
      refine ⟨h.toDeskInv.concluded hids ⟨?_, ?_, ?_, ?_, ?_, hlive, ?_, ?_, ?_⟩, hkind', ?_,
        fun c hc => h.waits c (hlive c hc)⟩
      · rw [hkind', h.kind]
      · rw [hnotes]
      · rw [hsys]
      · rw [hsys]
      · rw [sent_rx hkind', sent_rx h.kind, hnotes]
      · intro r hr
        rw [hnotes] at hr
        refine (List.mem_append.mp hr).imp_right (fun hr => ?_)
        rw [List.mem_singleton.mp hr]
        refine ⟨hlt, ?_, fun req hreq => ?_⟩
        · unfold QSys.live
          rw [hsys, List.map_append, List.mem_append]
          rintro (hin | hin)
          · exact hoff cb.id hin rfl
          · exact (h.ids.parked_apart hpark).1 hin
        · rw [hask req hreq]
          have hpos := h.waits cb hcb
          exact .error (show einval < 0 by decide) (show x.sent cb.id ≠ cb.req.count by omega)
      · rw [hsys]
        exact fun i hi => ⟨(h.waiting i hi).1, .inl hi⟩
      · rw [hnotes, hsys]
        exact fun i hi => ⟨.inl hi, (h.kept i hi).2⟩
      · rw [hsys]
        exact h.workList

/-- **Step lemma** of an ST C2H queue. -/
theorem RxDeskInv.step {x : Desk} (h : RxDeskInv x) {l : QLabel} (hleg : DeskLegal x l)
    (hok : Honest x l) : RxDeskInv (x.step l) := by
  have hl := hleg.traffic
  cases l with
  | submit req mapped => exact h.submit hok
  | service budget fill => exact h.service budget fill
  | pend id =>
      cases hfind : x.sys.parked.find? (fun c => c.id = id) with
      | some cb => exact h.pend hfind
      | none =>
          have hx : x.step (.pend id) = x := by
            unfold Desk.step Desk.note QSys.step
            simp only [hfind]
          rw [hx]
          exact h
  | worker =>
      apply h.still (l := .worker) trivial
        ⟨isRx_step x (l := .worker) trivial, rfl, rfl, rfl, rfl, rfl, le_rfl⟩ _ rfl
      show (qdmaThreadWrkProc x.sys.q).reqPart = _
      unfold qdmaThreadWrkProc
      rw [h.workList]
      rfl
  | packetRead req =>
      apply h.still (l := .packetRead req) trivial
        ⟨isRx_step x (l := .packetRead req) trivial, rfl, rfl, rfl, rfl, rfl, Nat.le_succ _⟩ _ rfl
      exact reqPart_rxFrame.packetRead x.sys.q x.sys.nreq req
  | device wbCidx mem wbPidx page =>
      apply h.still (l := .device wbCidx mem wbPidx page) trivial
        ⟨isRx_step x (l := .device wbCidx mem wbPidx page) trivial, rfl, rfl, rfl, rfl, rfl, le_rfl⟩
        _ rfl
      show (x.sys.q.deviceWrites wbCidx mem wbPidx page).reqPart = _
      unfold Descq.deviceWrites
      simp only
      split_ifs <;> rfl
  | wait id =>
      have hwork : (x.step (.wait id)).sys.q.workList = [] := by
        show (qdmaRequestWaitForCmpl x.sys.q id).1.workList = []
        unfold qdmaRequestWaitForCmpl Descq.listDel
        cases x.sys.q.doneCb id with
        | some cb => exact h.workList
        | none =>
            simp only
            rw [h.workList]
            rfl
      refine ⟨h.toDeskInv.wait hleg ?_, (isRx_step x hl).trans h.kind, hwork, ?_⟩
      · rintro _ cb hcb rfl
        -- a request that waits has room left, so that it is not done
        have hin : cb ∈ x.sys.live := List.mem_append_right _ hcb
        have hsum := (h.agrees hin).1
        have hpos := h.waits cb hin
        omega
      · intro c hc
        rcases List.mem_append.mp hc with hc | hc
        · exact h.waits c (List.mem_append_left _ hc)
        · exact h.waits c (List.mem_append_right _ (wait_reqs_subset hc))
  | stop | reconfig | start => exact absurd hl id

end Qdma
