/-
# Completion servicing of an ST C2H queue

`CmplRing` is the law of the completion ring: which entries the device has written and
the driver not yet gone through, and that their colour bit says so.  `Serving.entry` is
one round of the loop of `descq_process_completion_st_c2h`, `Serving.loop` the loop, and
`Serving.service` the whole call.
-/
import Qdma.Receiving

namespace Qdma

open RingIndex

/-! ## The completion ring -/

/-- A completion entry the device has written: its first word, the payload of its packet,
and the number of entries up to it. -/
structure Cmpl where
  word : ℕ
  payload : List UInt8
  seq : ℕ

/-- The buffers an entry reports. -/
def Cmpl.bufs (full : ℕ) (c : Cmpl) : List Buf :=
  if c.word.testBit 3 then packetBufs full c.seq c.payload else []

/-- The buffers some entries report. -/
def allBufs (full : ℕ) (cs : List Cmpl) : List Buf := cs.flatMap (Cmpl.bufs full)

/-- The colour of the `k`-th entry: it changes from lap to lap. -/
def lap (nw k : ℕ) : Bool := k / nw % 2 = 0

/-- One entry further the colour changes when the ring wraps. -/
theorem lap_succ {nw k : ℕ} (hn : 0 < nw) :
    lap nw (k + 1) = if k % nw + 1 = nw then !lap nw k else lap nw k := by
  have hlt := Nat.mod_lt k hn
  have hdvd : nw ∣ k + 1 ↔ k % nw + 1 = nw := by
    rw [Nat.dvd_iff_mod_eq_zero, ← Nat.mod_add_mod]
    constructor
    · intro h
      by_contra hne
      rw [Nat.mod_eq_of_lt (by omega)] at h
      omega
    · intro h
      rw [h, Nat.mod_self]
  unfold lap
  rw [Nat.succ_div]
  by_cases h : k % nw + 1 = nw
  · rw [if_pos (hdvd.mpr h), if_pos h, ← decide_not]
    exact decide_eq_decide.mpr (by omega)
  · rw [if_neg (mt hdvd.mp h), if_neg h, Nat.add_zero]

/-- An entry as the device writes it when nothing is wrong. -/
structure Cmpl.Good (conf : QueueConf) (color : Bool) (c : Cmpl) : Prop where
  format : c.word.testBit 0 = false
  color : c.word.testBit 1 = color
  err : c.word.testBit 2 = false
  len : c.word.testBit 3 = true → (c.word >>> 4) &&& mC2hWbEntryLength = c.payload.length
  udd : c.word.testBit 3 = false → conf.cmplUddEn = true

/-- **The law of the completion ring.**  Of the entries `sent` the driver has gone through
the first `r`; the others stand in the ring. -/
structure CmplRing (q : Descq) (sent : List Cmpl) (r : ℕ) : Prop where
  pos : 1 ≤ q.conf.rngszWrb
  le_max : q.conf.rngszWrb ≤ 65535
  cidx : q.cidxWrb = r % q.conf.rngszWrb
  cur : q.descWrbCur = r % q.conf.rngszWrb * q.wbEntryLen
  color : q.color = lap q.conf.rngszWrb r
  le : r ≤ sent.length
  entry : ∀ k (h : k < sent.length), r ≤ k →
    q.descWrb.mem (k % q.conf.rngszWrb * q.wbEntryLen) = sent[k].word ∧
      sent[k].Good q.conf (lap q.conf.rngszWrb k)
  seq : ∀ k (h : k < sent.length), sent[k].seq = k + 1

/-- The buffers the device has written to and the driver not yet received. -/
def Landed (n : ℕ) (s : ℕ → FlSdesc) (all : List Buf) (P : ℕ) : Prop :=
  ∀ j (h : j < all.length), P ≤ j →
    pageBytes (s (j % n)).page 0 all[j].bytes.length = all[j].bytes

/-- The receive side and the completion ring together, with `r` entries gone through. -/
structure Serving (q : Descq) (sent : List Cmpl) (r base pend : ℕ) : Prop where
  rx : Receiving q base pend (allBufs q.conf.c2hBufsz (sent.take r))
  ring : CmplRing q sent r
  landed : Landed q.conf.rngsz q.flq.sdesc (allBufs q.conf.c2hBufsz sent)
    (allBufs q.conf.c2hBufsz (sent.take r)).length
  room : (allBufs q.conf.c2hBufsz sent).length < base + q.conf.rngsz

theorem allBufs_append (full : ℕ) (cs ds : List Cmpl) :
    allBufs full (cs ++ ds) = allBufs full cs ++ allBufs full ds := List.flatMap_append

theorem allBufs_singleton (full : ℕ) (c : Cmpl) : allBufs full [c] = c.bufs full :=
  List.append_nil _

/-- One entry more. -/
theorem allBufs_take_succ (full : ℕ) {sent : List Cmpl} {r : ℕ} (h : r < sent.length) :
    allBufs full (sent.take (r + 1)) = allBufs full (sent.take r) ++ sent[r].bufs full := by
  rw [← List.take_concat_get' sent r h, allBufs_append, allBufs_singleton]

/-- The entries gone through report a front part of all buffers. -/
theorem allBufs_isPrefix (full : ℕ) (sent : List Cmpl) (r : ℕ) :
    allBufs full (sent.take r) <+: allBufs full sent := by
  refine ⟨allBufs full (sent.drop r), ?_⟩
  rw [← allBufs_append, List.take_append_drop]

/-- A payload is cut into buffers no longer than itself. -/
theorem length_bytes_le {full seq m : ℕ} {p : List UInt8} {b : Buf}
    (hb : b ∈ cutBufs full seq m p) : b.bytes.length ≤ p.length := by
  have hflat := flatMap_cutBufs full seq m p
  rw [← hflat, List.length_flatMap]
  exact List.single_le_sum (fun _ _ => Nat.zero_le _) _ (List.mem_map_of_mem hb)

/-- The bytes of the buffers of a packet are those of its payload. -/
theorem sum_bytes_cutBufs (full seq m : ℕ) (p : List UInt8) :
    ((cutBufs full seq m p).map (·.bytes.length)).sum = p.length := by
  conv_rhs => rw [← flatMap_cutBufs full seq m p, List.length_flatMap]

/-! ## One entry -/

/-- It is read off what finds its way through the completion ring. -/
theorem CmplRing.congr {q q' : Descq} {sent : List Cmpl} {r : ℕ} (h : CmplRing q sent r)
    (hconf : q'.conf = q.conf) (hcidx : q'.cidxWrb = q.cidxWrb)
    (hcur : q'.descWrbCur = q.descWrbCur) (hlen : q'.wbEntryLen = q.wbEntryLen)
    (hcolor : q'.color = q.color) (hmem : q'.descWrb.mem = q.descWrb.mem) :
    CmplRing q' sent r := by
  refine ⟨?_, ?_, ?_, ?_, ?_, h.le, ?_, h.seq⟩
  · rw [hconf]
    exact h.pos
  · rw [hconf]
    exact h.le_max
  · rw [hconf, hcidx]
    exact h.cidx
  · rw [hconf, hcur, hlen]
    exact h.cur
  · rw [hconf, hcolor]
    exact h.color
  · rw [hconf, hmem, hlen]
    exact h.entry

/-- The entry the driver looks at next. -/
theorem CmplRing.parse {q : Descq} {sent : List Cmpl} {r : ℕ} (h : CmplRing q sent r)
    (hr : r < sent.length) :
    parseCmplEntry q = (q, cmplInfo sent[r].word, 0) ∧
      (cmplInfo sent[r].word).color = q.color := by
  obtain ⟨hmem, hgood⟩ := h.entry r hr le_rfl
  have hword : q.descWrb.mem q.descWrbCur = sent[r].word := by rw [h.cur, hmem]
  constructor
  · have hok : ((cmplInfo sent[r].word).err || (cmplInfo sent[r].word).format ||
        (!(cmplInfo sent[r].word).descUsed && !q.conf.cmplUddEn)) = false := by
      show (sent[r].word.testBit 2 || sent[r].word.testBit 0 ||
        (!sent[r].word.testBit 3 && !q.conf.cmplUddEn)) = false
      rw [hgood.err, hgood.format]
      cases hb : sent[r].word.testBit 3 with
      | true => rfl
      | false => rw [hgood.udd hb]; rfl
    unfold parseCmplEntry
    rw [hword]
    simp only [hok, Bool.false_eq_true, if_false]
  · show sent[r].word.testBit 1 = _
    rw [hgood.color, h.color]

/-- The parts of a queue that going through entries leaves alone. -/
structure SameReqs (q q' : Descq) : Prop where
  conf : q'.conf = q.conf
  err : q'.err = q.err
  online : q'.online = q.online
  pidx : q'.pidx = q.pidx
  regs : q'.regs = q.regs
  pendList : q'.pendList = q.pendList
  copied : q'.copied = q.copied
  wbEntryLen : q'.wbEntryLen = q.wbEntryLen
  descWrb : q'.descWrb = q.descWrb
  pidxPend : q'.flq.pidxPend = q.flq.pidxPend
  page : ∀ i, (q'.flq.sdesc i).page = (q.flq.sdesc i).page
  offset : ∀ i, (q'.flq.sdesc i).offset = (q.flq.sdesc i).offset

theorem SameReqs.refl (q : Descq) : SameReqs q q :=
  ⟨rfl, rfl, rfl, rfl, rfl, rfl, rfl, rfl, rfl, rfl, fun _ => rfl, fun _ => rfl⟩

theorem SameReqs.trans {a b c : Descq} (h : SameReqs a b) (h' : SameReqs b c) :
    SameReqs a c :=
  ⟨h'.conf.trans h.conf, h'.err.trans h.err, h'.online.trans h.online, h'.pidx.trans h.pidx,
    h'.regs.trans h.regs, h'.pendList.trans h.pendList, h'.copied.trans h.copied,
    h'.wbEntryLen.trans h.wbEntryLen, h'.descWrb.trans h.descWrb,
    h'.pidxPend.trans h.pidxPend, fun i => (h'.page i).trans (h.page i),
    fun i => (h'.offset i).trans (h.offset i)⟩

/-- `wrb_next` moves to the next entry. -/
theorem CmplRing.next {q q' : Descq} {sent : List Cmpl} {r : ℕ} (h : CmplRing q sent r)
    (hr : r < sent.length) (hconf : q'.conf = q.conf) (hcidx : q'.cidxWrb = q.cidxWrb)
    (hcur : q'.descWrbCur = q.descWrbCur) (hcolor : q'.color = q.color)
    (hlen : q'.wbEntryLen = q.wbEntryLen) (hwrb : q'.descWrb = q.descWrb) :
    CmplRing (wrbNext q') sent (r + 1) := by
  have hn := h.pos
  have hlt := Nat.mod_lt r hn
  have hlap : lap q.conf.rngszWrb (r + 1) = if r % q.conf.rngszWrb + 1 = q.conf.rngszWrb
      then !lap q.conf.rngszWrb r else lap q.conf.rngszWrb r := lap_succ hn
  have hmod : (r + 1) % q.conf.rngszWrb = if r % q.conf.rngszWrb + 1 = q.conf.rngszWrb
      then 0 else r % q.conf.rngszWrb + 1 := by
    rw [← adv_one hlt, adv_mod]
  unfold wrbNext
  rw [hcidx, hconf, h.cidx]
  by_cases hw : r % q.conf.rngszWrb + 1 = q.conf.rngszWrb
  · rw [if_pos hw]
    rw [if_pos hw] at hlap hmod
    refine ⟨?_, ?_, ?_, ?_, ?_, hr, ?_, h.seq⟩ <;> simp only [hlen, hwrb]
    · exact hn
    · exact h.le_max
    · exact hmod.symm
    · rw [hmod, Nat.zero_mul]
    · rw [hlap, hcolor, h.color]
    · exact fun k hk hkr => h.entry k hk (by omega)
  · rw [if_neg hw]
    rw [if_neg hw] at hlap hmod
    refine ⟨?_, ?_, ?_, ?_, ?_, hr, ?_, h.seq⟩ <;> simp only [hlen, hwrb]
    · exact hn
    · exact h.le_max
    · exact hmod.symm
    · rw [hcur, h.cur, hmod, Nat.add_mul, Nat.one_mul]
    · rw [hlap, hcolor, h.color]
    · exact fun k hk hkr => h.entry k hk (by omega)

theorem SameReqs.wrbNext (q : Descq) : SameReqs q (wrbNext q) := by
  unfold Qdma.wrbNext
  split_ifs
  · exact ⟨rfl, rfl, rfl, rfl, rfl, rfl, rfl, rfl, rfl, rfl, fun _ => rfl, fun _ => rfl⟩
  · exact ⟨rfl, rfl, rfl, rfl, rfl, rfl, rfl, rfl, rfl, rfl, fun _ => rfl, fun _ => rfl⟩

/-- What receiving an entry does to the queue, all but the move to the next one. -/
structure Received (q : Descq) (sent : List Cmpl) (r base pend : ℕ) (q' : Descq)
    (pidx : ℕ) : Prop where
  rx : Receiving q' base pend (allBufs q.conf.c2hBufsz (sent.take (r + 1)))
  pidx_eq : pidx = (allBufs q.conf.c2hBufsz (sent.take (r + 1))).length % q.conf.rngsz
  same : SameReqs q q'
  color : q'.color = q.color
  cidxWrb : q'.cidxWrb = q.cidxWrb
  descWrbCur : q'.descWrbCur = q.descWrbCur

/-- **A packet that has arrived** is received. -/
theorem Serving.rcvPkt {q : Descq} {sent : List Cmpl} {r base pend : ℕ}
    (h : Serving q sent r base pend) (hr : r < sent.length)
    (hused : sent[r].word.testBit 3 = true) {cmpl : CmplInfo}
    (hpidx : cmpl.pidx = (allBufs q.conf.c2hBufsz (sent.take r)).length % q.conf.rngsz) :
    ∃ q' cmpl', Qdma.rcvPkt q cmpl sent[r].payload.length = (q', cmpl', 0) ∧
      Received q sent r base pend q' cmpl'.pidx := by
  obtain ⟨hmem, hgood⟩ := h.ring.entry r hr le_rfl
  set bufs := allBufs q.conf.c2hBufsz (sent.take r) with hbufs
  set new := sent[r].bufs q.conf.c2hBufsz with hnew
  have hsucc : allBufs q.conf.c2hBufsz (sent.take (r + 1)) = bufs ++ new := allBufs_take_succ _ hr
  have hpre : bufs ++ new <+: allBufs q.conf.c2hBufsz sent := by
    rw [← hsucc]
    exact allBufs_isPrefix _ sent (r + 1)
  have hnewp : new = packetBufs q.conf.c2hBufsz sent[r].seq sent[r].payload := by
    rw [hnew, Cmpl.bufs, if_pos hused]
  have hlen : sent[r].payload.length ≤ 65535 := by
    rw [← hgood.len hused]
    exact Nat.and_le_right
  have hseq : ringIdxIncr q.cidxWrb 1 q.conf.rngszWrb = sent[r].seq % q.conf.rngszWrb := by
    have hmax := h.ring.le_max
    rw [h.ring.cidx, h.ring.seq r hr, ringIdxIncr_eq_adv (by omega)
      (Nat.mod_lt _ h.ring.pos) h.ring.pos, adv_mod]
  have hroom : bufs.length + new.length < base + q.conf.rngsz := by
    have h1 := hpre.length_le
    have h2 := h.room
    rw [List.length_append] at h1
    omega
  -- the device has put the packet into the pages of the buffers that come next
  have hpage : ∀ j (hj : j < new.length), pageBytes
      (q.flq.sdesc ((bufs.length + j) % q.conf.rngsz)).page 0 new[j].bytes.length
        = new[j].bytes := by
    intro j hj
    have hj' : bufs.length + j < (bufs ++ new).length := by
      rw [List.length_append]
      omega
    have hall : bufs.length + j < (allBufs q.conf.c2hBufsz sent).length := by
      have := hpre.length_le
      omega
    have hget : (allBufs q.conf.c2hBufsz sent)[bufs.length + j] = new[j] := by
      rw [← hpre.getElem hj', List.getElem_append_right (Nat.le_add_right _ _)]
      simp
    have := h.landed (bufs.length + j) hall (Nat.le_add_right _ _)
    rwa [hget] at this
  obtain ⟨s, x, heq, hfl, hkeep⟩ :=
    FreeList.rcvPkt h.rx.sizes h.rx.fl hpidx hlen hseq hnewp hroom hpage
  -- the counter of bytes goes up by the packet, without wrapping
  have hdlen : ((bufs ++ new).drop pend).map (·.bytes.length)
      = (bufs.drop pend).map (·.bytes.length) ++ new.map (·.bytes.length) := by
    rw [List.drop_append_of_le_length h.rx.fl.pend_le, List.map_append]
  have hsum : (new.map (·.bytes.length)).sum = sent[r].payload.length := by
    rw [hnewp]
    exact sum_bytes_cutBufs _ _ _ _
  have hsmall : ∀ b ∈ bufs ++ new, b.bytes.length ≤ 65535 := by
    intro b hb
    rcases List.mem_append.mp hb with hb | hb
    · exact h.rx.small b hb
    · rw [hnewp] at hb
      exact (length_bytes_le hb).trans hlen
  refine ⟨_, _, heq, ?_, ?_, ?_, rfl, rfl, rfl⟩
  · rw [hsucc]
    have hsizes : RxSizes ((q.withBufs s x (q.avail - new.length)).withCounts
        (u32 (q.flq.pktDlen + sent[r].payload.length)) q.uddNext) :=
      h.rx.sizes.congr rfl rfl rfl rfl
    have hoff : (s (pend % q.conf.rngsz)).offset = (q.flq.sdesc (pend % q.conf.rngsz)).offset :=
      (hkeep _).2
    refine ⟨hsizes, hfl, h.rx.pidxPend, ?_, ?_, hsmall, h.rx.warned⟩
    · show u32 (q.flq.pktDlen + sent[r].payload.length) + (s (pend % q.conf.rngsz)).offset = _
      have hd := h.rx.dlen
      rw [← hbufs] at hd
      have hlt : (((bufs ++ new).drop pend).map (·.bytes.length)).sum < 2 ^ 32 := by
        have hb := hfl.base_le
        have hn := h.rx.sizes.le_max
        refine sum_bytes_lt hsmall ?_
        rw [List.length_append]
        omega
      rw [hdlen, List.sum_append, hsum] at hlt ⊢
      rw [hoff, u32_of_lt (by omega)]
      omega
    · show q.cidxWrbPend = _
      rw [h.rx.last, List.take_append_of_le_length h.rx.fl.pend_le]
      rfl
  · rw [hsucc, List.length_append]
    rfl
  · exact ⟨rfl, rfl, rfl, rfl, rfl, rfl, rfl, rfl, rfl, rfl, fun i => (hkeep i).1,
      fun i => (hkeep i).2⟩

/-- The receive state does not see the count of entries without a packet. -/
theorem Receiving.uddOnly {q : Descq} {base pend : ℕ} {bufs : List Buf}
    (h : Receiving q base pend bufs) (n : ℕ) :
    Receiving (q.setFlq { q.flq with uddCnt := n }) base pend bufs := by
  obtain ⟨h1, h2, h3, h4, h5, h6, h7⟩ := h
  exact ⟨h1.congr rfl rfl rfl rfl, h2, h3, h4, h5, h6, h7⟩

/-- **An entry without error** is received, with its packet if it has one. -/
theorem Serving.rcvEntry {q : Descq} {sent : List Cmpl} {r base pend : ℕ}
    (h : Serving q sent r base pend) (hr : r < sent.length) :
    ∃ q' cmpl', Qdma.rcvEntry q ((cmplInfo sent[r].word).withPidx
        ((allBufs q.conf.c2hBufsz (sent.take r)).length % q.conf.rngsz)) = (q', cmpl', 0) ∧
      Received q sent r base pend q' cmpl'.pidx := by
  obtain ⟨_, hgood⟩ := h.ring.entry r hr le_rfl
  set cmpl := (cmplInfo sent[r].word).withPidx
    ((allBufs q.conf.c2hBufsz (sent.take r)).length % q.conf.rngsz) with hcmpl
  unfold Qdma.rcvEntry
  cases hused : sent[r].word.testBit 3 with
  | true =>
      have hlen : cmpl.len = sent[r].payload.length := by
        show (if !sent[r].word.testBit 0 && sent[r].word.testBit 3 then _ else 0) = _
        rw [hgood.format, hused, if_pos (by rfl)]
        exact hgood.len hused
      have hdesc : cmpl.descUsed = true := hused
      rw [if_pos hdesc, hlen]
      exact h.rcvPkt hr hused rfl
  | false =>
      have hdesc : cmpl.descUsed = false := hused
      have hudd := hgood.udd hused
      have hnil : allBufs q.conf.c2hBufsz (sent.take (r + 1))
          = allBufs q.conf.c2hBufsz (sent.take r) := by
        rw [allBufs_take_succ _ hr, Cmpl.bufs, if_neg (by rw [hused]; decide), List.append_nil]
      simp only [hdesc, Bool.false_eq_true, if_false, hudd, if_true]
      unfold rcvUddOnly
      rw [h.rx.sizes.noHandler]
      refine ⟨_, _, rfl, ⟨?_, ?_, ?_, rfl, rfl, rfl⟩⟩
      · rw [hnil]
        exact h.rx.uddOnly _
      · rw [hnil]
        rfl
      · exact ⟨rfl, rfl, rfl, rfl, rfl, rfl, rfl, rfl, rfl, rfl, fun _ => rfl, fun _ => rfl⟩

/-- The loop of `descq_process_completion_st_c2h` once `r` entries are gone through. -/
def procAt (q : Descq) (sent : List Cmpl) (r cnt : ℕ) : Proc :=
  { d := q, pidx := (allBufs q.conf.c2hBufsz (sent.take r)).length % q.conf.rngsz,
    procCnt := cnt }

/-- **One round of the loop.** -/
theorem Serving.entry {q : Descq} {sent : List Cmpl} {r base pend : ℕ}
    (h : Serving q sent r base pend) (hr : r < sent.length) (m cnt : ℕ) :
    ∃ q', Qdma.procLoop (m + 1) (procAt q sent r cnt)
        = Qdma.procLoop m (procAt q' sent (r + 1) (cnt + 1)) ∧
      Serving q' sent (r + 1) base pend ∧ SameReqs q q' := by
  obtain ⟨hparse, hcolor⟩ := h.ring.parse hr
  obtain ⟨q1, cmpl', heq, hrcv⟩ := h.rcvEntry hr
  have hsame := hrcv.same.trans (.wrbNext q1)
  have hconf : (wrbNext q1).conf = q.conf := hsame.conf
  have hring := h.ring.next hr hrcv.same.conf hrcv.cidxWrb hrcv.descWrbCur hrcv.color
    hrcv.same.wbEntryLen hrcv.same.descWrb
  refine ⟨wrbNext q1, ?_, ⟨?_, hring, ?_, ?_⟩, hsame⟩
  · rw [Qdma.procLoop]
    unfold procAt
    simp only [hparse, lt_irrefl, if_false, hcolor, ne_eq, not_true_eq_false, heq]
    rw [hrcv.pidx_eq, hconf]
  · rw [hconf]
    refine hrcv.rx.congr ?_ ?_ ?_ ?_ ?_ <;> unfold wrbNext <;> split_ifs <;> rfl
  · rw [hconf]
    intro j hj hP
    rw [hsame.page]
    refine h.landed j hj ?_
    rw [allBufs_take_succ _ hr, List.length_append] at hP
    omega
  · rw [hconf]
    exact h.room

/-- **The loop** goes through the entries that are there. -/
theorem Serving.loopTo {q : Descq} {sent : List Cmpl} {r base pend : ℕ}
    (h : Serving q sent r base pend) {m : ℕ} (hm : r + m ≤ sent.length) (k cnt : ℕ) :
    ∃ q', Qdma.procLoop (m + k) (procAt q sent r cnt)
        = Qdma.procLoop k (procAt q' sent (r + m) (cnt + m)) ∧
      Serving q' sent (r + m) base pend ∧ SameReqs q q' := by
  induction m generalizing q r cnt with
  | zero => exact ⟨q, by rw [Nat.zero_add]; rfl, h, SameReqs.refl q⟩
  | succ m ih =>
      obtain ⟨q1, heq1, h1, hs1⟩ := h.entry (by omega) (m + k) cnt
      obtain ⟨q2, heq2, h2, hs2⟩ := ih h1 (by omega) (cnt + 1)
      refine ⟨q2, ?_, ?_, hs1.trans hs2⟩
      · rw [Nat.add_right_comm m 1 k, heq1, heq2, Nat.add_right_comm r, Nat.add_right_comm cnt]
        rfl
      · rw [show r + (m + 1) = r + 1 + m by omega]
        exact h2

/-- It goes through as many as it is told to. -/
theorem Serving.loop {q : Descq} {sent : List Cmpl} {r base pend : ℕ}
    (h : Serving q sent r base pend) {m : ℕ} (hm : r + m ≤ sent.length) (cnt : ℕ) :
    ∃ q', Qdma.procLoop m (procAt q sent r cnt) = procAt q' sent (r + m) (cnt + m) ∧
      Serving q' sent (r + m) base pend ∧ SameReqs q q' := h.loopTo hm 0 cnt

/-! ## The whole call -/

/-- **The refill of a service call** posts all the buffers read and rings for them. -/
theorem Receiving.procRefill {q : Descq} {base pend : ℕ} {bufs : List Buf}
    (h : Receiving q base pend bufs) (fill : ℕ → FillOutcome)
    (hbell : q.regs.pidx = (base + q.conf.rngsz - 1) % q.conf.rngsz) :
    ∃ s x a regs, Qdma.procRefill q (base % q.conf.rngsz) fill
        = (q.withBufs s x a).withRegs regs ∧
      Receiving (Qdma.procRefill q (base % q.conf.rngsz) fill) pend pend bufs ∧
      (∀ i, (s i).page = (q.flq.sdesc i).page) ∧
      s (pend % q.conf.rngsz) = q.flq.sdesc (pend % q.conf.rngsz) ∧
      regs.pidx = (pend + q.conf.rngsz - 1) % q.conf.rngsz := by
  have hn := h.sizes.pos
  have hmax := h.sizes.le_max
  have hb := h.fl.base_le
  have hp := h.fl.pend_le
  have hl := h.fl.lt
  have hneq : q.flq.pidxPend ≠ base % q.conf.rngsz ↔ base < pend := by
    rw [h.pidxPend]
    constructor
    · intro hne
      rcases Nat.eq_or_lt_of_le hb with heq | hlt
      · exact absurd (by rw [heq]) hne
      · exact hlt
    · intro hlt
      exact (mod_ne_mod hlt (by omega)).symm
  have hcnt : ringIdxDelta q.flq.pidxPend (base % q.conf.rngsz) q.flq.size = pend - base := by
    rw [h.pidxPend, h.sizes.size, ringIdxDelta_mod (by omega) hb (by omega)]
  have hdecr : ringIdxDecr q.flq.pidxPend 1 q.flq.size
      = (pend + q.conf.rngsz - 1) % q.conf.rngsz := by
    rw [h.pidxPend, h.sizes.size, ringIdxDecr_one_eq_adv (by omega) (Nat.mod_lt _ hn), adv_mod]
    congr 1
    omega
  unfold Qdma.procRefill
  by_cases hlt : base < pend
  · rw [if_pos (hneq.mpr hlt)]
    have hidx : (if base % q.conf.rngsz = q.conf.rngsz then 0 else base % q.conf.rngsz)
        = base % q.conf.rngsz := if_neg (Nat.mod_lt base hn).ne
    obtain ⟨s, x, a, heq, hfl, hpage, hkeep⟩ :=
      FreeList.refill fill (pend - base) h.sizes h.fl (by omega) hidx
    rw [Nat.add_sub_cancel' hb] at hfl hkeep
    have hs := hkeep pend le_rfl (by omega)
    have hnone : q.conf.fpDescqC2hPacket.isNone = true := by rw [h.sizes.noHandler]; rfl
    simp only [hcnt, hnone, heq]
    refine ⟨s, x, a, _, rfl, ?_, hpage, hs, hdecr⟩
    have hsizes : RxSizes (q.withBufs s x a) := h.sizes.congr rfl rfl rfl rfl
    have hrx : Receiving (q.withBufs s x a) pend pend bufs := by
      refine ⟨hsizes, hfl, h.pidxPend, ?_, h.last, h.small, h.warned⟩
      show q.flq.pktDlen + (s (pend % q.conf.rngsz)).offset = _
      rw [hs]
      exact h.dlen
    exact hrx.congr rfl rfl rfl rfl rfl
  · rw [if_neg (mt hneq.mp hlt)]
    -- nothing was read since the last refill
    have heq : base = pend := by omega
    subst heq
    exact ⟨_, _, _, _, rfl, h, fun _ => rfl, rfl, hbell⟩

/-- A call goes through no more entries than there are. -/
theorem procBudget_le (budget : ℤ) (n : ℕ) : procBudget budget n ≤ n := by
  unfold procBudget
  split_ifs <;> omega

/-- Where a service call with `n` entries before it gets to, if those it goes through are
without error: it does nothing, or it goes through them and ends with the reads and the
refill. -/
theorem Serving.call_eq {q : Descq} {sent : List Cmpl} {r pend n : ℕ}
    (h : Serving q sent r pend pend)
    (hpidx : q.pidx = (allBufs q.conf.c2hBufsz (sent.take r)).length % q.conf.rngsz)
    (hn : ringIdxDelta q.descWrb.wbPidx q.cidxWrb q.conf.rngszWrb = n) (budget : ℤ)
    (hle : r + procBudget budget n ≤ sent.length) (fill : ℕ → FillOutcome) :
    (descqProcessCompletionStC2h q budget fill).1 = q ∧
        (q.err = true ∨ q.pendList = [] ∨ procBudget budget n = 0) ∨
      ∃ q1, 0 < procBudget budget n ∧ Serving q1 sent (r + procBudget budget n) pend pend ∧
        SameReqs q q1 ∧ (descqProcessCompletionStC2h q budget fill).1
          = procEnd (procAt q1 sent (r + procBudget budget n) (procBudget budget n))
              q.descWrb.wbPidx (pend % q.conf.rngsz) fill := by
  unfold descqProcessCompletionStC2h
  simp only [hn]
  split_ifs with h1 h2 h3
  · exact .inl ⟨rfl, .inl h1⟩
  · rw [Bool.and_eq_true, Bool.and_eq_true] at h2
    exact .inl ⟨rfl, .inr (.inl (List.isEmpty_iff.mp h2.1.2))⟩
  · exact .inl ⟨rfl, .inr (.inr (Nat.le_zero.mp (h3 ▸ procBudget_le budget n)))⟩
  · set m := procBudget budget n with hm
    have hstart : ({ d := q, pidx := q.pidx } : Proc) = procAt q sent r 0 := by
      rw [hpidx]
      rfl
    obtain ⟨q1, heq, hserv, hsame⟩ := h.loop (m := m) hle 0
    rw [Nat.zero_add] at heq
    rw [hstart, heq]
    rcases Nat.eq_zero_or_pos m with h0 | hpos
    · left
      have hq1 : procAt q1 sent (r + m) m = procAt q sent r 0 := by
        rw [← heq, h0]
        rfl
      rw [hq1]
      exact ⟨rfl, .inr (.inr h0)⟩
    · right
      refine ⟨q1, hpos, hserv, hsame, ?_⟩
      rw [h.rx.pidxPend]
      rfl

/-- Where a service call gets to that finds the entries before `w`. -/
theorem Serving.service_eq {q : Descq} {sent : List Cmpl} {r pend w : ℕ}
    (h : Serving q sent r pend pend)
    (hpidx : q.pidx = (allBufs q.conf.c2hBufsz (sent.take r)).length % q.conf.rngsz)
    (hwb : q.descWrb.wbPidx = w % q.conf.rngszWrb) (hrw : r ≤ w) (hws : w ≤ sent.length)
    (hlap : w < r + q.conf.rngszWrb) (budget : ℤ) (fill : ℕ → FillOutcome) :
    (descqProcessCompletionStC2h q budget fill).1 = q ∨
      ∃ q1, 0 < procBudget budget (w - r) ∧
        Serving q1 sent (r + procBudget budget (w - r)) pend pend ∧
        SameReqs q q1 ∧ (descqProcessCompletionStC2h q budget fill).1
          = procEnd (procAt q1 sent (r + procBudget budget (w - r)) (procBudget budget (w - r)))
              q.descWrb.wbPidx (pend % q.conf.rngsz) fill := by
  have hmax := h.ring.le_max
  have hpend : ringIdxDelta q.descWrb.wbPidx q.cidxWrb q.conf.rngszWrb = w - r := by
    rw [hwb, h.ring.cidx, ringIdxDelta_mod (by omega) hrw hlap]
  have hle := procBudget_le budget (w - r)
  exact (h.call_eq hpidx hpend budget (by omega) fill).imp_left And.left

/-- What a service call leaves behind once it has gone through entries: `k` buffers are read
to their end, `log` is what was copied. -/
structure Serviced (q1 : Descq) (sent : List Cmpl) (r pend k : ℕ) (log : List Copy)
    (q' : Descq) : Prop where
  serving : Serving q' sent r (pend + k) (pend + k)
  pidx : q'.pidx = (allBufs q'.conf.c2hBufsz (sent.take r)).length % q'.conf.rngsz
  bell : q'.regs.pidx = (pend + k + q'.conf.rngsz - 1) % q'.conf.rngsz
  wrbBell : q'.regs.wrbCidx = q'.cidxWrbPend
  conf : q'.conf = q1.conf
  wbEntryLen : q'.wbEntryLen = q1.wbEntryLen
  descWrb : q'.descWrb = q1.descWrb
  copied : q'.copied = q1.copied ++ log
  dlen : q'.flq.pktDlen + (copyBytes log).length = q1.flq.pktDlen
  nil : q1.pendList = [] → log = []
  bytes : (∀ cb ∈ q1.pendList, CbOk cb) → q1.headOffset pend = 0 →
    ReadsWhole (((allBufs q1.conf.c2hBufsz (sent.take r)).drop pend).map (·.bytes.length)) 0
      q1.pendList →
    copyBytes log <+: ((allBufs q1.conf.c2hBufsz (sent.take r)).drop pend).flatMap Buf.bytes
  pendOk : (∀ cb ∈ q1.pendList, CbOk cb) → ∀ cb ∈ q'.pendList, CbOk cb
  waiting : (∀ cb ∈ q1.pendList, CbWaits cb) → (q1.pendList.map SgtReqCb.id).Nodup →
    Drawn q1 q1.pendList pend (allBufs q1.conf.c2hBufsz (sent.take r)) k log q'

/-- **The end of a service call**: the pending requests are served and the buffers read are
posted again. -/
theorem Serving.procEnd {q1 : Descq} {sent : List Cmpl} {r pend : ℕ}
    (h : Serving q1 sent r pend pend) {cnt : ℕ} (hcnt : cnt ≠ 0) (pidxWrb : ℕ)
    (fill : ℕ → FillOutcome)
    (hbell : q1.regs.pidx = (pend + q1.conf.rngsz - 1) % q1.conf.rngsz) :
    ∃ k log, Serviced q1 sent r pend k log
      (Qdma.procEnd (procAt q1 sent r cnt) pidxWrb (pend % q1.conf.rngsz) fill) := by
  set q2 : Descq := { q1 with
    pidxWrb := pidxWrb
    pidx := (allBufs q1.conf.c2hBufsz (sent.take r)).length % q1.conf.rngsz } with hq2
  have hrx2 : Receiving q2 pend pend (allBufs q1.conf.c2hBufsz (sent.take r)) :=
    h.rx.congr rfl rfl rfl rfl rfl
  obtain ⟨k, log, hserved⟩ := hrx2.procDflt rfl q2.pendList
  have hrx3 := hserved.rx
  have hsame := hserved.same
  set q3 := packetsProcDflt q2.pendList q2 with hq3
  have hconf3 : q3.conf = q1.conf := hsame.conf
  obtain ⟨s, x, a, regs, heq, hrx4, hpage, hhead4, hbell4⟩ := hrx3.procRefill fill
    (by rw [hserved.regs, hconf3]; exact hbell)
  have hnone : q1.conf.fpDescqC2hPacket.isNone = true := by rw [h.rx.sizes.noHandler]; rfl
  have hend : Qdma.procEnd (procAt q1 sent r cnt) pidxWrb (pend % q1.conf.rngsz) fill
      = descqWrbCidxUpdate ((q3.withBufs s x a).withRegs regs) q3.cidxWrbPend := by
    unfold Qdma.procEnd procAt
    rw [if_pos hcnt]
    simp only [hnone, if_true]
    show descqWrbCidxUpdate (Qdma.procRefill q3 (pend % q1.conf.rngsz) fill)
      (Qdma.procRefill q3 (pend % q1.conf.rngsz) fill).cidxWrbPend = _
    rw [← hconf3, heq]
    rfl
  rw [hend]
  rw [heq] at hrx4
  have hring : CmplRing q3 sent r :=
    h.ring.congr hconf3 hsame.cidxWrb hsame.descWrbCur hsame.wbEntryLen hsame.color
      (congrArg WrbRing.mem hsame.descWrb)
  refine ⟨k, log, ⟨⟨?_, ?_, ?_, ?_⟩, ?_, hbell4, rfl, hconf3, hsame.wbEntryLen, hsame.descWrb,
    hserved.copied, hserved.dlen, hserved.nil, hserved.bytes, fun hok => hserved.pendOk hok hok,
    fun hw hnd => ?_⟩⟩
  · show Receiving _ _ _ (allBufs q3.conf.c2hBufsz _)
    rw [hconf3]
    exact hrx4.congr rfl rfl rfl rfl rfl
  · exact hring.congr rfl rfl rfl rfl rfl rfl
  · show Landed q3.conf.rngsz s (allBufs q3.conf.c2hBufsz _) (allBufs q3.conf.c2hBufsz _).length
    rw [hconf3]
    intro j hj hP
    rw [hpage, hsame.page]
    exact h.landed j hj hP
  · show (allBufs q3.conf.c2hBufsz sent).length < pend + k + q3.conf.rngsz
    rw [hconf3]
    have := h.room
    omega
  · show q3.pidx = (allBufs q3.conf.c2hBufsz _).length % q3.conf.rngsz
    rw [hconf3, hsame.pidx]
  · obtain ⟨d1, d2, d3, d4⟩ := hserved.waiting hw rfl hnd
    refine ⟨d1, d2, d3, d4.trans ?_⟩
    unfold Descq.unread Descq.headOffset
    show _ = (_, _, Blocks.solid (leftBytes (s ((pend + k) % q3.conf.rngsz)).offset _))
    rw [hhead4]
    rfl

end Qdma
