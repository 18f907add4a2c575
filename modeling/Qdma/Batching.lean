/-
# Batches of completion entries

The same entries are gone through by calls of `descq_process_completion_st_c2h` with
different budgets, on a queue without handler on which some request stays pending.

Each call ends with all packets so far read, so it does not matter where one call stops and
the next begins: the bytes copied are what `Blocks.drawAll` draws (`Descq.future`).  Only a
call that comes to an entry in error returns before its reads: packets it has gone through
before that entry are lost.  `batching_iff` is the exact condition.
-/
import Qdma.WakeUp
import Qdma.Completions

namespace Qdma

open RingIndex Exec

/-! ## Calls -/

/-- A call of `descq_process_completion_st_c2h`: its budget, and the allocations of its
refill. -/
abbrev ServiceCall := ℤ × (ℕ → FillOutcome)

/-- One call. -/
def Descq.call (q : Descq) (c : ServiceCall) : Descq := (descqProcessCompletionStC2h q c.1 c.2).1

/-- One call after the other. -/
def Descq.calls (q : Descq) (cs : List ServiceCall) : Descq := cs.foldl Descq.call q

/-- Some request stays pending. -/
def StaysPending : Descq → List ServiceCall → Prop
  | q, [] => q.pendList ≠ []
  | q, c :: cs => q.pendList ≠ [] ∧ StaysPending (q.call c) cs

instance decidableStaysPending : ∀ (q : Descq) (cs : List ServiceCall),
    Decidable (StaysPending q cs)
  | q, [] => inferInstanceAs (Decidable (q.pendList ≠ []))
  | q, c :: cs =>
      have : Decidable (StaysPending (q.call c) cs) := decidableStaysPending (q.call c) cs
      inferInstanceAs (Decidable (q.pendList ≠ [] ∧ StaysPending (q.call c) cs))

/-- All entries are gone through, up to one in error. -/
def Descq.Processed (q : Descq) : Prop := q.err = true ∨ q.cidxWrb = q.descWrb.wbPidx

instance (q : Descq) : Decidable q.Processed := inferInstanceAs (Decidable (_ ∨ _))

/-- The calls `cs` go through all entries posted. -/
structure Splits (q : Descq) (cs : List ServiceCall) : Prop where
  pending : StaysPending q cs
  processed : (q.calls cs).Processed

/-- An entry with the error bit or of format 1. -/
def BadWord (word : ℕ) : Prop := word.testBit 2 = true ∨ word.testBit 0 = true

instance (word : ℕ) : Decidable (BadWord word) := inferInstanceAs (Decidable (_ ∨ _))

/-- The queue once the device has published all its entries, behind them one in error if
there is a `bad` one. -/
def Rx.batch (s : Rx) : Option ℕ → Descq
  | none => (s.publish s.wrbPidx).q
  | some word =>
      let q := s.q.setWrb (s.wrbPidx * s.q.wbEntryLen) word
      { q with descWrb := { q.descWrb with wbPidx := adv s.q.conf.rngszWrb s.wrbPidx 1 } }

/-- The entry in error has its place in the completion ring. -/
def BadLegal (s : Rx) (word : ℕ) : Prop :=
  BadWord word ∧ dist s.q.conf.rngszWrb s.q.regs.wrbCidx s.wrbPidx + 1 < s.q.conf.rngszWrb

instance (s : Rx) (word : ℕ) : Decidable (BadLegal s word) := inferInstanceAs (Decidable (_ ∧ _))

/-- Two queues are in the same state: where they are in the rings, what they hold, the flags
and lengths of all buffers. -/
structure SameQueue (a b : Descq) : Prop where
  pidx : a.pidx = b.pidx
  avail : a.avail = b.avail
  cidxWrb : a.cidxWrb = b.cidxWrb
  color : a.color = b.color
  err : a.err = b.err
  flags : ∀ i < a.conf.rngsz, (a.flq.sdescInfo i).valid = (b.flq.sdescInfo i).valid ∧
    (a.flq.sdescInfo i).sop = (b.flq.sdescInfo i).sop ∧
    (a.flq.sdescInfo i).eop = (b.flq.sdescInfo i).eop
  lengths : ∀ i < a.conf.rngsz, (a.flq.sdesc i).len = (b.flq.sdesc i).len ∧
    (a.flq.sdesc i).offset = (b.flq.sdesc i).offset

/-- No packet is lost: if there were entries to go through, all buffers the device has filled
are read. -/
def NothingLost (s : Rx) (q' : Descq) : Prop :=
  s.q.cidxWrb ≠ s.wrbPidx → q'.flq.pidxPend = s.bufPidx

/-- Two ways of going through the entries agree, and lose nothing. -/
structure Independent (s : Rx) (a b : Descq) : Prop where
  state : SameQueue a b
  bytes : copyBytes a.copied = copyBytes b.copied
  left : NothingLost s a
  right : NothingLost s b

/-- The last `g` entries written fill no buffer. -/
def Rx.NoPackets (s : Rx) (g : ℕ) : Prop :=
  allBufs s.q.conf.c2hBufsz (s.sent.drop (s.sent.length - g)) = []

/-- **The entry in error is met in time**: the call whose budget reaches it finds no other
entry to go through, or nothing it would have to read.  `g` good entries are left, and
`clear` says that all packets are read. -/
def MetInTime (s : Rx) : ℕ → Prop → List ServiceCall → Prop
  | _, _, [] => True
  | g, clear, c :: cs =>
      let m := procBudget c.1 (g + 1)
      if m = g + 1 then g = 0 ∨ clear
      else if m = 0 then MetInTime s g clear cs
      else MetInTime s (g - m) (s.NoPackets (g - m)) cs

instance (s : Rx) (g : ℕ) : Decidable (s.NoPackets g) :=
  decidable_of_iff _ List.isEmpty_iff

instance decidableMetInTime (s : Rx) : ∀ (g : ℕ) (clear : Prop) [Decidable clear]
    (cs : List ServiceCall), Decidable (MetInTime s g clear cs)
  | _, _, _, [] => inferInstanceAs (Decidable True)
  | g, clear, _, c :: cs =>
      have : Decidable (MetInTime s g clear cs) := decidableMetInTime s g clear cs
      have : Decidable (MetInTime s (g - procBudget c.1 (g + 1))
          (s.NoPackets (g - procBudget c.1 (g + 1))) cs) :=
        decidableMetInTime s _ (s.NoPackets _) cs
      show Decidable (if procBudget c.1 (g + 1) = g + 1 then g = 0 ∨ clear
        else if procBudget c.1 (g + 1) = 0 then MetInTime s g clear cs
        else MetInTime s (g - procBudget c.1 (g + 1))
          (s.NoPackets (g - procBudget c.1 (g + 1))) cs) from inferInstance

/-- The same from the state the calls begin with. -/
def Rx.InTime (s : Rx) (cs : List ServiceCall) : Prop :=
  MetInTime s (dist s.q.conf.rngszWrb s.q.cidxWrb s.wrbPidx) (s.q.flq.pidxPend = s.bufPidx) cs

instance (s : Rx) (cs : List ServiceCall) : Decidable (s.InTime cs) :=
  inferInstanceAs (Decidable (MetInTime ..))

/-! ## A queue between two calls -/

/-- **The state between two calls**: `r` entries are gone through, and the buffers before
`pend` read. -/
structure Batch (sent : List Cmpl) (q : Descq) (r pend : ℕ) : Prop where
  serving : Serving q sent r pend pend
  pidx : q.pidx = (allBufs q.conf.c2hBufsz (sent.take r)).length % q.conf.rngsz
  bell : q.regs.pidx = (pend + q.conf.rngsz - 1) % q.conf.rngsz
  err : q.err = false
  waits : ∀ cb ∈ q.pendList, CbWaits cb
  nodup : (q.pendList.map SgtReqCb.id).Nodup

/-- The bytes that reads for the requests on `pend_list` get out of all buffers. -/
def Descq.future (q : Descq) (sent : List Cmpl) (pend : ℕ) : List UInt8 :=
  (Blocks.drawAll keepFront (q.pendList.map cbRoom)
    (q.unread pend (allBufs q.conf.c2hBufsz sent))).1

/-- More buffers behind those that are there. -/
theorem leftBytes_append {o : ℕ} {bs : List Buf} (h : bs = [] → o = 0) (cs : List Buf) :
    leftBytes o (bs ++ cs) = leftBytes o bs ++ cs.map Buf.bytes := by
  cases bs with
  | nil =>
      rw [h rfl]
      cases cs with
      | nil => rfl
      | cons c cs =>
          show leftBytes 0 (c :: cs) = (c :: cs).map Buf.bytes
          rw [leftBytes, Nat.sub_zero, List.take_length]
          rfl
  | cons b bs =>
      show _ :: (bs ++ cs).map Buf.bytes = _
      rw [List.map_append]
      rfl

theorem solid_append (cs ds : List (List UInt8)) :
    Blocks.solid (cs ++ ds) = Blocks.solid cs ++ Blocks.solid ds := List.filter_append ..

/-- The unread buffers of more entries. -/
theorem Serving.unread_append {q : Descq} {sent : List Cmpl} {r pend : ℕ}
    (h : Serving q sent r pend pend) {all : List Buf}
    (hall : allBufs q.conf.c2hBufsz (sent.take r) <+: all) :
    q.unread pend all = q.unread pend (allBufs q.conf.c2hBufsz (sent.take r)) ++
      Blocks.solid ((all.drop (allBufs q.conf.c2hBufsz (sent.take r)).length).map Buf.bytes) := by
  obtain ⟨new, rfl⟩ := hall
  have hfl := h.rx.fl
  have hle := hfl.pend_le
  unfold Descq.unread
  rw [List.drop_append_of_le_length hle, List.drop_left, leftBytes_append, solid_append]
  intro hnil
  -- the first buffer not received yet is clean
  have hlen : (allBufs q.conf.c2hBufsz (sent.take r)).length ≤ pend := List.drop_eq_nil_iff.mp hnil
  exact (hfl.clean pend hlen (by have := h.rx.sizes.pos; omega)).offset

/-- Where all buffers are read nothing is unread. -/
theorem unread_nil (q : Descq) (bufs : List Buf) : q.unread bufs.length bufs = [] := by
  unfold Descq.unread
  rw [List.drop_length]
  rfl

theorem drawAll_nil {as : List ℕ} (h : ∀ a ∈ as, a ≠ 0) :
    Blocks.drawAll keepFront as [] = ([], as, []) := by
  cases as with
  | nil => rfl
  | cons a as =>
      rw [Blocks.drawAll, Blocks.draw]
      simp only
      rw [if_neg (h a List.mem_cons_self)]

/-- Where all buffers are read there is nothing more to get. -/
theorem Batch.future_nil {sent : List Cmpl} {q : Descq} {r : ℕ}
    (h : Batch sent q r (allBufs q.conf.c2hBufsz sent).length) :
    q.future sent (allBufs q.conf.c2hBufsz sent).length = [] := by
  unfold Descq.future
  rw [unread_nil, drawAll_nil]
  intro a ha
  obtain ⟨cb, hcb, rfl⟩ := List.mem_map.mp ha
  have hw := h.waits cb hcb
  rw [← hw.left_eq]
  exact Nat.ne_of_gt hw.pos

/-- What a call keeps that goes through entries without error. -/
structure CallKeeps (q q' : Descq) : Prop where
  conf : q'.conf = q.conf
  descWrb : q'.descWrb = q.descWrb
  wbEntryLen : q'.wbEntryLen = q.wbEntryLen

theorem err_serveFrame : ServeFrame Descq.err :=
  ⟨⟨⟨fun _ _ _ => rfl, fun _ _ => rfl, fun _ _ => rfl⟩, fun _ _ => rfl, fun _ _ => rfl,
    fun _ _ => rfl⟩, fun _ _ _ _ => rfl, fun _ _ _ => rfl⟩

/-- **One call** without an error: it does nothing, or it goes through entries and reads all
there is for those who wait.  What has been read and what is to come make up the same
bytes. -/
theorem Batch.step {sent : List Cmpl} {q : Descq} {r pend n : ℕ} (h : Batch sent q r pend)
    (hn : ringIdxDelta q.descWrb.wbPidx q.cidxWrb q.conf.rngszWrb = n) (c : ServiceCall)
    (hle : r + procBudget c.1 n ≤ sent.length) :
    q.call c = q ∧ (q.pendList = [] ∨ procBudget c.1 n = 0) ∨
      ∃ k, 0 < procBudget c.1 n ∧ Batch sent (q.call c) (r + procBudget c.1 n) (pend + k) ∧
        CallKeeps q (q.call c) ∧ ((q.call c).pendList ≠ [] →
          pend + k = (allBufs q.conf.c2hBufsz (sent.take (r + procBudget c.1 n))).length ∧
          copyBytes (q.call c).copied ++ (q.call c).future sent (pend + k)
            = copyBytes q.copied ++ q.future sent pend) := by
  rcases h.serving.call_eq h.pidx hn c.1 hle c.2 with ⟨heq, hwhy⟩ | ⟨q1, hpos, hserv, hsame, heq⟩
  · refine .inl ⟨heq, hwhy.resolve_left ?_⟩
    rw [h.err]
    decide
  right
  set m := procBudget c.1 n with hm
  obtain ⟨k, log, hdone⟩ := hserv.procEnd (Nat.ne_of_gt hpos) q.descWrb.wbPidx c.2
    (by rw [hsame.regs, hsame.conf]; exact h.bell)
  rw [hsame.conf, ← heq] at hdone
  have hcall : (descqProcessCompletionStC2h q c.1 c.2).1 = q.call c := rfl
  rw [hcall] at hdone heq
  have hconf : (q.call c).conf = q.conf := hdone.conf.trans hsame.conf
  obtain ⟨d1, d2, d3, d4⟩ := hdone.waiting (by rw [hsame.pendList]; exact h.waits)
    (by rw [hsame.pendList]; exact h.nodup)
  rw [hsame.pendList] at d3 d4
  refine ⟨k, hpos, ⟨hdone.serving, hdone.pidx, hdone.bell, ?_, d2, ?_⟩,
    ⟨hconf, hdone.descWrb.trans hsame.descWrb, hdone.wbEntryLen.trans hsame.wbEntryLen⟩,
    fun hpend => ?_⟩
  · rw [heq, err_serveFrame.procEnd]
    exact hsame.err.trans h.err
  · exact h.nodup.sublist d3.sublist
  · have hall := d1.resolve_left hpend
    rw [hsame.conf] at hall
    refine ⟨hall, ?_⟩
    -- the buffers of the entries still to come stand behind those there are
    have hoff : ∀ bufs, q.unread pend bufs = q1.unread pend bufs := by
      intro bufs
      unfold Descq.unread Descq.headOffset
      rw [hsame.conf, hsame.offset]
    have hpre := allBufs_isPrefix q.conf.c2hBufsz sent (r + m)
    have happ := @Serving.unread_append q1 sent (r + m) pend hserv (allBufs q.conf.c2hBufsz sent)
      (by rw [hsame.conf]; exact hpre)
    have happ' := @Serving.unread_append (q.call c) sent (r + m) (pend + k) hdone.serving
      (allBufs q.conf.c2hBufsz sent) (by rw [hconf]; exact hpre)
    rw [hsame.conf] at happ d4
    rw [hconf, hall, unread_nil, List.nil_append] at happ'
    have hrooms : (Blocks.drawAll keepFront (q.pendList.map cbRoom)
        (q1.unread pend (allBufs q.conf.c2hBufsz (sent.take (r + m))))).2.1 ≠ [] := by
      rw [d4]
      simpa using hpend
    unfold Descq.future
    rw [hconf, hall, happ', hoff, happ, Blocks.drawAll_append _ _ hrooms, d4, hdone.copied,
      hsame.copied, copyBytes_append, List.append_assoc]

/-- **A call that comes to the entry in error** returns at once: it has gone through the
entries before, but has read nothing. -/
theorem Batch.errorCall {sent : List Cmpl} {q : Descq} {r pend word : ℕ}
    (h : Batch sent q r pend) (hpend : q.pendList ≠ [])
    (hn : ringIdxDelta q.descWrb.wbPidx q.cidxWrb q.conf.rngszWrb = sent.length - r + 1)
    {c : ServiceCall} (hm : procBudget c.1 (sent.length - r + 1) = sent.length - r + 1)
    (hbad : BadWord word)
    (hword : q.descWrb.mem (sent.length % q.conf.rngszWrb * q.wbEntryLen) = word) :
    ∃ q1, q.call c = { q1 with err := true } ∧ Serving q1 sent sent.length pend pend ∧
      SameReqs q q1 ∧ (r = sent.length → q1 = q) := by
  have hle := h.serving.ring.le
  -- the loop up to the entry in error
  obtain ⟨q1, hloop, hserv, hsame, heq⟩ : ∃ q1,
      Qdma.procLoop (sent.length - r + 1) (procAt q sent r 0)
        = Qdma.procLoop 1 (procAt q1 sent sent.length (sent.length - r)) ∧
      Serving q1 sent sent.length pend pend ∧ SameReqs q q1 ∧ (r = sent.length → q1 = q) := by
    by_cases hr : r = sent.length
    · subst hr
      exact ⟨q, by rw [Nat.sub_self], h.serving, .refl q, fun _ => rfl⟩
    · obtain ⟨q1, h1, h2, h3⟩ := h.serving.loopTo (m := sent.length - r) (by omega) 1 0
      rw [Nat.add_sub_cancel' hle, Nat.zero_add] at h1
      rw [Nat.add_sub_cancel' hle] at h2
      exact ⟨q1, h1, h2, h3, fun heq => absurd heq hr⟩
  refine ⟨q1, ?_, hserv, hsame, heq⟩
  have hmem : q1.descWrb.mem q1.descWrbCur = word := by
    rw [hserv.ring.cur, hsame.conf, hsame.wbEntryLen, hsame.descWrb]
    exact hword
  have hparse : parseCmplEntry q1 = ({ q1 with err := true }, cmplInfo word, einval) := by
    unfold parseCmplEntry
    rw [hmem]
    have herr : ((cmplInfo word).err || (cmplInfo word).format ||
        (!(cmplInfo word).descUsed && !q1.conf.cmplUddEn)) = true := by
      show (word.testBit 2 || word.testBit 0 || _) = true
      rcases hbad with hb | hb
      · rw [hb]
        rfl
      · rw [hb, Bool.or_true]
        rfl
    simp only [herr, if_true]
  have hone : Qdma.procLoop 1 (procAt q1 sent sent.length (sent.length - r))
      = { procAt { q1 with err := true } sent sent.length (sent.length - r) with
          ret := some einval } := by
    rw [Qdma.procLoop]
    unfold procAt
    simp only [hparse]
    rw [if_pos (by decide)]
  have hstart : ({ d := q, pidx := q.pidx } : Proc) = procAt q sent r 0 := by
    rw [h.pidx]
    rfl
  have hready : (q.conf.fpDescqC2hPacket.isNone && q.pendList.isEmpty && q.workList.isEmpty)
      = false := by
    cases hl : q.pendList with
    | nil => exact absurd hl hpend
    | cons => rw [List.isEmpty_cons, Bool.and_false, Bool.false_and]
  show (descqProcessCompletionStC2h q c.1 c.2).1 = _
  unfold descqProcessCompletionStC2h
  simp only [h.err, hready, hn, hm, Bool.false_eq_true, if_false]
  rw [if_neg (Nat.succ_ne_zero _), hstart, hloop, hone]
  rfl

/-! ## The queue the calls begin with -/

/-- Another position published and other words in the completion ring, but not in place of
the entries still to come. -/
theorem Serving.rewrite {q : Descq} {sent : List Cmpl} {r base pend : ℕ}
    (h : Serving q sent r base pend) (mem : ℕ → ℕ) (wbPidx : ℕ)
    (hmem : ∀ k < sent.length, r ≤ k → mem (k % q.conf.rngszWrb * q.wbEntryLen)
      = q.descWrb.mem (k % q.conf.rngszWrb * q.wbEntryLen)) :
    Serving { q with descWrb := { q.descWrb with mem := mem, wbPidx := wbPidx } } sent r base
      pend := by
  obtain ⟨hrx, ⟨c1, c2, c3, c4, c5, c6, c7, c8⟩, hland, hroom⟩ := h
  refine ⟨hrx.congr rfl rfl rfl rfl rfl, ⟨c1, c2, c3, c4, c5, c6, fun k hk hr => ?_, c8⟩, hland,
    hroom⟩
  obtain ⟨hword, hgood⟩ := c7 k hk hr
  exact ⟨(hmem k hk hr).trans hword, hgood⟩

/-- **What the device has posted**: all its entries, and a `bad` one behind them. -/
structure Published (s : Rx) (bad : Option ℕ) (q : Descq) (r : ℕ) : Prop where
  conf : q.conf = s.q.conf
  wbPidx : q.descWrb.wbPidx = (s.sent.length + bad.toList.length) % s.q.conf.rngszWrb
  lap : s.sent.length + bad.toList.length < r + s.q.conf.rngszWrb
  word : ∀ word ∈ bad, BadWord word ∧
    q.descWrb.mem (s.sent.length % s.q.conf.rngszWrb * q.wbEntryLen) = word

/-- A call changes nothing of it. -/
theorem Published.keep {s : Rx} {bad : Option ℕ} {q q' : Descq} {r r' : ℕ}
    (h : Published s bad q r) (hk : CallKeeps q q') (hr : r ≤ r') : Published s bad q' r' := by
  have hlap := h.lap
  refine ⟨hk.conf.trans h.conf, by rw [hk.descWrb]; exact h.wbPidx, by omega, fun word hw => ?_⟩
  rw [hk.descWrb, hk.wbEntryLen]
  exact h.word word hw

/-- The queue of a run, once all entries are published. -/
theorem RxInv.batch {s : Rx} {r pend : ℕ} (h : RxInv s r pend) (hw : WaitersInv s)
    (herr : s.q.err = false) {bad : Option ℕ} (hbad : ∀ word ∈ bad, BadLegal s word) :
    Batch s.sent (s.batch bad) r pend ∧ Published s bad (s.batch bad) r := by
  have hlap := h.lt_lap
  have hwaits := fun cb hcb => hw.waits cb (List.mem_append_left s.parked hcb)
  have hnodup : (s.q.pendList.map SgtReqCb.id).Nodup := by
    have hnd := hw.nodup
    rw [List.map_append, List.nodup_append] at hnd
    exact hnd.1
  cases bad with
  | none =>
      have hserv := h.serving.rewrite s.q.descWrb.mem s.wrbPidx (fun _ _ _ => rfl)
      refine ⟨⟨hserv, h.pidx, h.bell, herr, hwaits, hnodup⟩, ⟨rfl, ?_, ?_, nofun⟩⟩
      · show s.wrbPidx = _
        exact h.wrbPidx
      · exact hlap
  | some word =>
      obtain ⟨hword, hroom⟩ := hbad word rfl
      have hlap' : s.sent.length + 1 < r + s.q.conf.rngszWrb := by
        obtain ⟨v, hv, hvle, hvlt⟩ := h.wrbBell
        rw [h.take_pend] at hvle
        have hvr := lastSeq_le s.q.conf.c2hBufsz h.serving.ring.seq r pend
        have hrs := h.serving.ring.le
        rw [hv, h.wrbPidx, dist_mod (by omega) hvlt] at hroom
        omega
      have hserv := h.serving.rewrite
        (Function.update s.q.descWrb.mem (s.wrbPidx * s.q.wbEntryLen) word)
        (adv s.q.conf.rngszWrb s.wrbPidx 1) (fun k hk hr => ?_)
      · refine ⟨⟨hserv, h.pidx, h.bell, herr, hwaits, hnodup⟩, ⟨rfl, ?_, hlap', fun w hw => ?_⟩⟩
        · show adv s.q.conf.rngszWrb s.wrbPidx 1 = _
          rw [h.wrbPidx, adv_mod]
          rfl
        · rw [← Option.some.inj hw]
          refine ⟨hword, ?_⟩
          show Function.update _ _ _ _ = _
          rw [h.wrbPidx]
          exact Function.update_self ..
      · -- the place of the entry in error is not that of an entry to come
        have hne := mod_ne_mod (n := s.q.conf.rngszWrb) hk (by omega)
        rw [h.wrbPidx, Function.update_of_ne
          (fun he => hne (Nat.eq_of_mul_eq_mul_right h.entryLen he))]

/-- How many entries a call finds. -/
theorem Published.delta {s : Rx} {bad : Option ℕ} {q : Descq} {r pend : ℕ} (h : Published s bad q r)
    (hb : Batch s.sent q r pend) :
    ringIdxDelta q.descWrb.wbPidx q.cidxWrb q.conf.rngszWrb
      = s.sent.length + bad.toList.length - r := by
  have hle := hb.serving.ring.le
  have hmax := hb.serving.ring.le_max
  have hlap := h.lap
  rw [hb.serving.ring.cidx, h.wbPidx, h.conf]
  rw [h.conf] at hmax
  exact ringIdxDelta_mod (by omega) (by omega) hlap

/-! ## After an error -/

theorem call_err {q : Descq} (h : q.err = true) (c : ServiceCall) : q.call c = q := by
  show (descqProcessCompletionStC2h q c.1 c.2).1 = q
  unfold descqProcessCompletionStC2h
  rw [if_pos h]

/-- With the error flag set the calls do nothing. -/
theorem calls_err {q : Descq} (h : q.err = true) (cs : List ServiceCall) : q.calls cs = q := by
  induction cs with
  | nil => rfl
  | cons c cs ih =>
      show (q.call c).calls cs = q
      rw [call_err h]
      exact ih

theorem StaysPending.head {q : Descq} {cs : List ServiceCall} (h : StaysPending q cs) :
    q.pendList ≠ [] := by
  cases cs with
  | nil => exact h
  | cons c cs => exact h.1

/-! ## All calls -/

/-- **All entries are gone through and all packets read.** -/
structure Complete (s : Rx) (e : Bool) (bytes : List UInt8) (q : Descq) : Prop where
  conf : q.conf = s.q.conf
  pidx : q.pidx = s.bufPidx
  avail : q.avail = s.q.conf.rngsz - 1
  cidxWrb : q.cidxWrb = s.wrbPidx
  color : q.color = s.color
  err : q.err = e
  clean : ∀ i < s.q.conf.rngsz, Clean s.q.conf.c2hBufsz (q.bufAt i)
  pidxPend : q.flq.pidxPend = s.bufPidx
  bytes : copyBytes q.copied = bytes

theorem SameQueue.refl (q : Descq) : SameQueue q q :=
  ⟨rfl, rfl, rfl, rfl, rfl, fun _ _ => ⟨rfl, rfl, rfl⟩, fun _ _ => ⟨rfl, rfl⟩⟩

/-- Two queues that are done with the same entries are in the same state. -/
theorem Complete.independent {s : Rx} {e : Bool} {bytes : List UInt8} {a b : Descq}
    (ha : Complete s e bytes a) (hb : Complete s e bytes b) : Independent s a b := by
  refine ⟨⟨ha.pidx.trans hb.pidx.symm, ha.avail.trans hb.avail.symm,
    ha.cidxWrb.trans hb.cidxWrb.symm, ha.color.trans hb.color.symm, ha.err.trans hb.err.symm,
    fun i hi => ?_, fun i hi => ?_⟩, ha.bytes.trans hb.bytes.symm, fun _ => ha.pidxPend,
    fun _ => hb.pidxPend⟩
  · rw [ha.conf] at hi
    have h1 := ha.clean i hi
    have h2 := hb.clean i hi
    exact ⟨h1.valid.trans h2.valid.symm, h1.sop.trans h2.sop.symm, h1.eop.trans h2.eop.symm⟩
  · rw [ha.conf] at hi
    have h1 := ha.clean i hi
    have h2 := hb.clean i hi
    exact ⟨h1.len.trans h2.len.symm, h1.offset.trans h2.offset.symm⟩

/-- Where all buffers are read the queue is done, whether it has met an error or not. -/
theorem Serving.complete {s : Rx} {r pend : ℕ} (hs : RxInv s r pend) {q : Descq}
    (hconf : q.conf = s.q.conf)
    (h : Serving q s.sent s.sent.length (allBufs s.q.conf.c2hBufsz s.sent).length
      (allBufs s.q.conf.c2hBufsz s.sent).length)
    (hpidx : q.pidx = s.bufPidx) (e : Bool) :
    Complete s e (copyBytes q.copied) { q with err := e } := by
  obtain ⟨hrx, hring, -, -⟩ := h
  rw [hconf, List.take_length] at hrx
  have hfl := hrx.fl
  refine ⟨hconf, hpidx, ?_, ?_, ?_, rfl, fun i hi => ?_, ?_, rfl⟩
  · have havail := hfl.avail_eq
    rw [Nat.sub_self, Nat.add_zero, hconf] at havail
    exact havail
  · show q.cidxWrb = _
    rw [hring.cidx, hconf, hs.wrbPidx]
  · show q.color = _
    rw [hring.color, hconf, hs.color]
  · obtain ⟨j, hj, hjn, rfl⟩ := exists_mod_eq (allBufs s.q.conf.c2hBufsz s.sent).length hi
    have hclean := hfl.clean j hj (by rw [hconf]; exact hjn)
    rw [hconf] at hclean
    exact hclean
  · show q.flq.pidxPend = _
    rw [hrx.pidxPend, hconf, hs.bufPidx]

/-- Where no good entry is left the error is met in time. -/
theorem metInTime_zero (s : Rx) (clear : Prop) (cs : List ServiceCall) :
    MetInTime s 0 clear cs := by
  induction cs with
  | nil => trivial
  | cons c cs ih =>
      have hle := procBudget_le c.1 (0 + 1)
      rw [MetInTime]
      split_ifs with h1 h2
      · exact .inl rfl
      · exact ih
      · omega

/-- Where no good entry is left the calls do nothing but meet the error. -/
theorem Batch.idle {s : Rx} {bad : Option ℕ} {q : Descq} {pend : ℕ}
    (h : Batch s.sent q s.sent.length pend) (hp : Published s bad q s.sent.length)
    {cs : List ServiceCall} (hstay : StaysPending q cs) (hproc : (q.calls cs).Processed) :
    q.calls cs = { q with err := bad.isSome } := by
  have hlap := hp.lap
  have hself : q = { q with err := false } := by rw [← h.err]
  induction cs with
  | nil =>
      rcases hproc with herr | heq
      · rw [show (q.calls []).err = q.err from rfl, h.err] at herr
        exact absurd herr (by decide)
      · cases bad with
        | none => exact hself
        | some word =>
            have hmod : s.sent.length % s.q.conf.rngszWrb
                = (s.sent.length + 1) % s.q.conf.rngszWrb := by
              rw [← hp.conf, ← h.serving.ring.cidx, hp.conf]
              exact heq.trans hp.wbPidx
            exact absurd hmod (mod_ne_mod (Nat.lt_succ_self _) hlap)
  | cons c cs ih =>
      have hdelta := hp.delta h
      rw [Nat.add_sub_cancel_left] at hdelta
      have hbud := procBudget_le c.1 bad.toList.length
      show (q.call c).calls cs = _
      by_cases hm : procBudget c.1 bad.toList.length = 0
      · -- the call finds nothing, or has no budget
        have hcall : q.call c = q := by
          rcases h.step hdelta c (by omega) with ⟨heq, -⟩ | ⟨k, hpos, -⟩
          · exact heq
          · exact absurd hm (Nat.ne_of_gt hpos)
        obtain ⟨-, hstay'⟩ := hstay
        have hproc' : ((q.call c).calls cs).Processed := hproc
        rw [hcall] at hstay' hproc' ⊢
        exact ih hstay' hproc'
      · cases bad with
        | none => exact absurd (Nat.le_zero.mp hbud) hm
        | some word =>
            obtain ⟨hbad, hword⟩ := hp.word word rfl
            have hone : procBudget c.1 1 = 1 := by
              have hbud' : procBudget c.1 1 ≤ 1 := hbud
              have hm' : procBudget c.1 1 ≠ 0 := hm
              omega
            obtain ⟨q1, hcall, -, -, hq1⟩ := h.errorCall hstay.head
              (by rw [Nat.sub_self]; exact hdelta) (by rw [Nat.sub_self]; exact hone) hbad
              (by rw [hp.conf]; exact hword)
            rw [hq1 rfl] at hcall
            rw [hcall, calls_err rfl]
            rfl

/-- How a sequence of calls can end, the entry in error being met in time or not: done with
all entries and packets, with `bytes` copied, or with packets lost. -/
def Outcome (s : Rx) (bad : Option ℕ) (bytes : List UInt8) (q' : Descq) (inTime : Prop) : Prop :=
  (bad = none ∨ inTime) ∧ Complete s bad.isSome bytes q' ∨
    bad ≠ none ∧ ¬ inTime ∧ q'.flq.pidxPend ≠ s.bufPidx

/-- Without an entry in error nothing need be met. -/
theorem Outcome.congr {s : Rx} {bad : Option ℕ} {bytes : List UInt8} {q' : Descq}
    {inTime inTime' : Prop} (h : Outcome s bad bytes q' inTime)
    (hiff : bad ≠ none → (inTime' ↔ inTime)) : Outcome s bad bytes q' inTime' := by
  by_cases hbad : bad = none
  · rcases h with ⟨-, hdone⟩ | ⟨hne, -⟩
    · exact .inl ⟨.inl hbad, hdone⟩
    · exact absurd hbad hne
  · unfold Outcome
    rwa [hiff hbad]

/-- The buffers of the last entries. -/
theorem noPackets_iff (s : Rx) {r : ℕ} (hr : r ≤ s.sent.length) :
    s.NoPackets (s.sent.length - r) ↔ (allBufs s.q.conf.c2hBufsz (s.sent.take r)).length
      = (allBufs s.q.conf.c2hBufsz s.sent).length := by
  unfold Rx.NoPackets
  rw [Nat.sub_sub_self hr]
  conv_rhs => rw [← List.take_append_drop r s.sent, List.take_left' (List.length_take_of_le hr),
    allBufs_append, List.length_append]
  rw [← List.length_eq_zero_iff]
  omega

/-- **A call that comes to the entry in error** while good entries are left: its reads are
missing, unless there is nothing to read. -/
theorem Batch.atError {s : Rx} {r0 pend0 : ℕ} (hs : RxInv s r0 pend0) {word : ℕ} {q : Descq}
    {r pend : ℕ} (h : Batch s.sent q r pend) (hp : Published s (some word) q r)
    (hr : r < s.sent.length) (hpend : q.pendList ≠ []) {c : ServiceCall}
    (hm : procBudget c.1 (s.sent.length - r + 1) = s.sent.length - r + 1)
    (cs : List ServiceCall) :
    Outcome s (some word) (copyBytes q.copied ++ q.future s.sent pend) ((q.call c).calls cs)
      (pend = (allBufs s.q.conf.c2hBufsz s.sent).length) := by
  obtain ⟨hbad, hword⟩ := hp.word word rfl
  have hdelta := hp.delta h
  have hN : s.sent.length + (some word).toList.length - r = s.sent.length - r + 1 := by
    show s.sent.length + 1 - r = _
    omega
  rw [hN] at hdelta
  obtain ⟨q1, hcall, hserv, hsame, -⟩ := h.errorCall hpend hdelta hm hbad
    (by rw [hp.conf]; exact hword)
  have hle := h.serving.rx.fl.pend_le
  have hpre := (allBufs_isPrefix q.conf.c2hBufsz s.sent r).length_le
  have hroom := h.serving.room
  rw [hp.conf] at hle hpre hroom
  rw [hcall, calls_err rfl]
  by_cases hall : pend = (allBufs s.q.conf.c2hBufsz s.sent).length
  · -- the entries that are left report no packet
    refine .inl ⟨.inr hall, ?_⟩
    have hpidx : q1.pidx = s.bufPidx := by
      rw [hsame.pidx, h.pidx, hp.conf, hs.bufPidx]
      congr 1
      omega
    rw [hall] at hserv
    rw [hall, ← hp.conf] at h ⊢
    rw [h.future_nil, List.append_nil, ← hsame.copied]
    exact hserv.complete hs (hsame.conf.trans hp.conf) hpidx true
  · refine .inr ⟨Option.some_ne_none word, hall, ?_⟩
    show q1.flq.pidxPend ≠ _
    rw [hsame.pidxPend, h.serving.rx.pidxPend, hp.conf, hs.bufPidx]
    exact mod_ne_mod (by omega) hroom

/-- **All calls**, while good entries are left. -/
theorem Batch.outcome {s : Rx} {r0 pend0 : ℕ} (hs : RxInv s r0 pend0) {bad : Option ℕ}
    {q : Descq} {r pend : ℕ} (h : Batch s.sent q r pend) (hp : Published s bad q r)
    (hr : r < s.sent.length) {clear : Prop}
    (hclear : clear ↔ pend = (allBufs s.q.conf.c2hBufsz s.sent).length) {cs : List ServiceCall}
    (hstay : StaysPending q cs) (hproc : (q.calls cs).Processed) :
    Outcome s bad (copyBytes q.copied ++ q.future s.sent pend) (q.calls cs)
      (MetInTime s (s.sent.length - r) clear cs) := by
  induction cs generalizing q r pend clear with
  | nil =>
      have hlap := hp.lap
      rcases hproc with herr | heq
      · rw [show (q.calls []).err = q.err from rfl, h.err] at herr
        exact absurd herr (by decide)
      · have hmod : r % s.q.conf.rngszWrb
            = (s.sent.length + bad.toList.length) % s.q.conf.rngszWrb := by
          rw [← hp.conf, ← h.serving.ring.cidx, hp.conf]
          exact heq.trans hp.wbPidx
        exact absurd hmod (mod_ne_mod (by omega) hlap)
  | cons c cs ih =>
      have hdelta := hp.delta h
      set N := s.sent.length + bad.toList.length - r with hN
      have hbud := procBudget_le c.1 N
      -- with an entry in error behind the good ones
      have hsome : bad ≠ none → N = s.sent.length - r + 1 := by
        intro hbad
        obtain ⟨word, rfl⟩ := Option.ne_none_iff_exists'.mp hbad
        have hN' : N = s.sent.length + 1 - r := hN
        omega
      obtain ⟨hpend, hstay'⟩ := hstay
      have hproc' : ((q.call c).calls cs).Processed := hproc
      show Outcome s bad _ ((q.call c).calls cs) _
      by_cases hm : r + procBudget c.1 N ≤ s.sent.length
      · rcases h.step hdelta c hm with ⟨heq, hwhy⟩ | ⟨k, hpos, hb, hkeep, hrest⟩
        · have hzero := hwhy.resolve_left hpend
          rw [heq] at hstay' hproc' ⊢
          refine (ih h hp hr hclear hstay' hproc').congr (fun hbad => ?_)
          rw [hsome hbad] at hzero
          rw [MetInTime, hzero, if_neg (Nat.zero_ne_add_one _), if_pos rfl]
        · obtain ⟨hall, hbytes⟩ := hrest hstay'.head
          set m := procBudget c.1 N with hmdef
          have hp' := hp.keep hkeep (Nat.le_add_right r m)
          rw [hp.conf] at hall
          have hmet : bad ≠ none → (MetInTime s (s.sent.length - r) clear (c :: cs) ↔
              MetInTime s (s.sent.length - (r + m)) (s.NoPackets (s.sent.length - (r + m))) cs) := by
            intro hbad
            rw [hsome hbad] at hmdef
            rw [MetInTime, ← hmdef, if_neg (by omega), if_neg (Nat.ne_of_gt hpos), Nat.sub_sub]
          have hclear' := noPackets_iff s hm
          rw [← hall] at hclear'
          rw [← hbytes]
          refine Outcome.congr ?_ hmet
          by_cases hend : r + m = s.sent.length
          · -- all good entries are gone through, and all packets read
            rw [hend] at hb hp' hall ⊢
            rw [List.take_length] at hall
            refine .inl ⟨.inr (by rw [Nat.sub_self]; exact metInTime_zero s _ cs), ?_⟩
            have hpidx := hb.pidx
            rw [List.take_length, hp'.conf, ← hs.bufPidx] at hpidx
            have hserv := hb.serving
            rw [hb.idle hp' hstay' hproc']
            rw [hall] at hserv
            rw [hall, ← hp'.conf] at hb ⊢
            rw [hb.future_nil, List.append_nil]
            exact hserv.complete hs hp'.conf hpidx _
          · exact ih hb hp' (by omega) hclear' hstay' hproc'
      · have hbad : bad ≠ none := by
          rintro rfl
          have hN' : N = s.sent.length - r := hN
          omega
        have hN' := hsome hbad
        obtain ⟨word, rfl⟩ := Option.ne_none_iff_exists'.mp hbad
        have hm' : procBudget c.1 N = N := by omega
        rw [hN'] at hm'
        refine (h.atError hs hp hr hpend hm' cs).congr (fun _ => ?_)
        rw [MetInTime, if_pos hm', ← hclear]
        exact or_iff_right (by omega)

/-! ## Runs -/

/-- The error flag is not set in a run without entries in error. -/
theorem RxInv.err_step {s : Rx} {r pend : ℕ} (h : RxInv s r pend) (herr : s.q.err = false)
    (l : RxLabel) : (s.step l).q.err = false := by
  by_cases hdev : l.Device
  · cases l with
    | dma | publish => exact herr
    | submit | pend | wait | packetRead | service => exact absurd hdev id
  by_cases hserv : ∃ budget fill, l = .service budget fill
  · obtain ⟨budget, fill, rfl⟩ := hserv
    obtain ⟨j, -, -, hkeep, -⟩ := h.service_call budget fill
    exact hkeep.err.trans herr
  · have hpart := (cmplPart_callers s hdev (fun b f he => hserv ⟨b, f, he⟩)).1
    exact (congrArg (·.2.1) hpart).trans herr

/-- **Going through entries does not depend on how they are split into calls**, on a queue
just started, after every run, if there is no entry in error, and else if and only if both
ways of splitting them meet it in time. -/
theorem batching_iff {q : Descq} (h : StartedC2h q) (hnone : q.conf.fpDescqC2hPacket = none)
    {evs : List RxLabel} {s : Rx}
    (hrun : Run Rx.step (fun s l => RxLegal s l ∧ l.Sized) { q := q } evs s) {bad : Option ℕ}
    (hbad : ∀ word ∈ bad, BadLegal s word) {cs cs' : List ServiceCall}
    (hcs : Splits (s.batch bad) cs) (hcs' : Splits (s.batch bad) cs') :
    Independent s ((s.batch bad).calls cs) ((s.batch bad).calls cs') ↔
      (bad ≠ none → s.InTime cs ∧ s.InTime cs') := by
  have hstart := h.startedRx hnone
  obtain ⟨⟨r, pend, hs⟩, hw, herr⟩ := hrun.invariant
    (I := fun s => (∃ r pend, RxInv s r pend) ∧ WaitersInv s ∧ s.q.err = false)
    ⟨⟨0, 0, hstart.rxInv⟩, hstart.awakeInv.waiters, h.err⟩
    (fun s l ⟨⟨r, pend, hi⟩, hw, he⟩ hl => ⟨rxInv_step hi hl.1, hw.step hi hl.2, hi.err_step he l⟩)
  obtain ⟨hb, hp⟩ := hs.batch hw herr hbad
  have hle := hs.serving.ring.le
  have hdist : dist s.q.conf.rngszWrb s.q.cidxWrb s.wrbPidx = s.sent.length - r := by
    rw [hs.serving.ring.cidx, hs.wrbPidx, dist_mod hle hs.lt_lap]
  have hroom := hs.serving.room
  have hpp := hs.serving.rx.fl.pend_le
  have hpre := (allBufs_isPrefix s.q.conf.c2hBufsz s.sent r).length_le
  unfold Rx.InTime
  rw [hdist]
  rcases Nat.eq_or_lt_of_le hle with heq | hlt
  · -- no good entry is left
    subst heq
    have hcidx : s.q.cidxWrb = s.wrbPidx := by rw [hs.serving.ring.cidx, hs.wrbPidx]
    rw [hb.idle hp hcs.pending hcs.processed, hb.idle hp hcs'.pending hcs'.processed, Nat.sub_self]
    constructor
    · exact fun _ _ => ⟨metInTime_zero s _ cs, metInTime_zero s _ cs'⟩
    · exact fun _ => ⟨.refl _, rfl, fun hne => absurd hcidx hne, fun hne => absurd hcidx hne⟩
  · have hne : s.q.cidxWrb ≠ s.wrbPidx := by
      rw [hs.serving.ring.cidx, hs.wrbPidx]
      exact mod_ne_mod hlt hs.lt_lap
    have hclear : s.q.flq.pidxPend = s.bufPidx ↔
        pend = (allBufs s.q.conf.c2hBufsz s.sent).length := by
      rw [hs.serving.rx.pidxPend, hs.bufPidx]
      constructor
      · intro heq
        by_contra hne'
        exact absurd heq (mod_ne_mod (by omega) hroom)
      · exact fun heq => by rw [heq]
    have hout := hb.outcome hs hp hlt hclear hcs.pending hcs.processed
    have hout' := hb.outcome hs hp hlt hclear hcs'.pending hcs'.processed
    constructor
    · rintro ⟨-, -, hleft, hright⟩ hbad'
      constructor
      · rcases hout with ⟨hmet, -⟩ | ⟨-, -, hlost⟩
        · exact hmet.resolve_left hbad'
        · exact absurd (hleft hne) hlost
      · rcases hout' with ⟨hmet, -⟩ | ⟨-, -, hlost⟩
        · exact hmet.resolve_left hbad'
        · exact absurd (hright hne) hlost
    · intro hmet
      rcases hout with ⟨-, hdone⟩ | ⟨hbad', hnot, -⟩
      · rcases hout' with ⟨-, hdone'⟩ | ⟨hbad', hnot, -⟩
        · exact hdone.independent hdone'
        · exact absurd (hmet hbad').2 hnot
      · exact absurd (hmet hbad').1 hnot

/-! ## Concrete runs -/

/-- A read of 100 bytes is waiting and a packet of 4 bytes has been written. -/
def oneWaiting : Rx :=
  [RxLabel.submit (readReq 100), .pend 0, .dma (cmplWord true 4) [1, 2, 3, 4]].foldl Rx.step
    startedRx

instance (l : RxLabel) : Decidable l.Sized :=
  match l with
  | .submit _ => inferInstanceAs (Decidable (_ ∨ _))
  | .pend _ | .wait _ | .packetRead _ | .service _ _ | .dma _ _ | .publish _ =>
      inferInstanceAs (Decidable True)

theorem oneWaiting_run : Run Rx.step (fun s l => RxLegal s l ∧ l.Sized) startedRx
    [RxLabel.submit (readReq 100), .pend 0, .dma (cmplWord true 4) [1, 2, 3, 4]] oneWaiting :=
  Run.of_admits _ (by decide +kernel)

/-- Each entry in a call of its own, and a call without effect in between. -/
theorem batching_iff_single :
    let cs := [((1 : ℤ), fun _ : ℕ => FillOutcome.noMem), (0, fun _ => .noMem)]
    let cs' := [((1 : ℤ), fun _ : ℕ => FillOutcome.noMem), (-3, fun _ => .noMem),
      (7, fun _ => .noMem)]
    copyBytes ((oneWaiting.batch (some 4)).calls cs).copied = [1, 2, 3, 4] ∧
      Independent oneWaiting ((oneWaiting.batch (some 4)).calls cs)
        ((oneWaiting.batch (some 4)).calls cs') := by
  have hbad : ∀ word ∈ some 4, BadLegal oneWaiting word := by
    intro word hw
    rw [← Option.some.inj hw]
    decide +kernel
  refine ⟨by decide +kernel, (batching_iff startedRx_startedC2h rfl oneWaiting_run hbad
    ⟨?_, ?_⟩ ⟨?_, ?_⟩).mpr fun _ => ⟨?_, ?_⟩⟩
  all_goals decide +kernel

/-- **A packet is lost.**  One call goes through the packet and comes to the entry in error:
it returns before its reads, and no call after it does anything. -/
theorem error_loses_packet :
    let cs := [((0 : ℤ), fun _ : ℕ => FillOutcome.noMem)]
    let cs' := [((1 : ℤ), fun _ : ℕ => FillOutcome.noMem), (0, fun _ => .noMem)]
    Run Rx.step (fun s l => RxLegal s l ∧ l.Sized) startedRx
        [.submit (readReq 100), .pend 0, .dma (cmplWord true 4) [1, 2, 3, 4]] oneWaiting ∧
      BadLegal oneWaiting 4 ∧ Splits (oneWaiting.batch (some 4)) cs ∧
      Splits (oneWaiting.batch (some 4)) cs' ∧
      copyBytes ((oneWaiting.batch (some 4)).calls cs).copied = [] ∧
      copyBytes ((oneWaiting.batch (some 4)).calls cs').copied = [1, 2, 3, 4] ∧
      ¬ Independent oneWaiting ((oneWaiting.batch (some 4)).calls cs)
        ((oneWaiting.batch (some 4)).calls cs') := by
  refine ⟨oneWaiting_run, by decide +kernel, ⟨by decide +kernel, by decide +kernel⟩,
    ⟨by decide +kernel, by decide +kernel⟩, by decide +kernel, by decide +kernel, fun h => ?_⟩
  exact absurd h.bytes (by decide +kernel)

end Qdma
