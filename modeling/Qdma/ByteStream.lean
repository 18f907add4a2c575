/-
# The byte stream of an ST C2H queue

What `descq_st_c2h_read` copies, over a whole run, against what the packets brought.
Every `memcpy` starts at the beginning of the page of its buffer, also when part of that
buffer was read before: `byte_stream` needs every read to begin with a new buffer, and
`resumed_read_repeats` shows what happens otherwise.
-/
import Qdma.FreeListLaw

namespace Qdma

open RingIndex Exec Blocks

/-! ## The stream -/

/-- The bytes copied are the beginning of what the buffers hold, up to where the reads
got. -/
structure Streamed (q : Descq) (pend : ℕ) (bufs : List Buf) : Prop where
  isPrefix : copyBytes q.copied <+: bufs.flatMap Buf.bytes
  length : (copyBytes q.copied).length
    = ((bufs.take pend).map (·.bytes.length)).sum + q.headOffset pend

/-- A read that begins with a new buffer, or copies nothing, goes on with the stream. -/
theorem Streamed.next {q q' : Descq} {pend pend' : ℕ} {bufs bufs' : List Buf} {log : List Copy}
    (h : Streamed q pend bufs) (hbufs : bufs <+: bufs') (hp : pend ≤ bufs.length)
    (hcopied : q'.copied = q.copied ++ log)
    (hcount : ((bufs'.take pend').map (·.bytes.length)).sum + q'.headOffset pend'
      = ((bufs'.take pend).map (·.bytes.length)).sum + q.headOffset pend
        + (copyBytes log).length)
    (hbytes : copyBytes log = [] ∨
      q.headOffset pend = 0 ∧ copyBytes log <+: (bufs'.drop pend).flatMap Buf.bytes) :
    Streamed q' pend' bufs' := by
  have htake : bufs'.take pend = bufs.take pend := by
    obtain ⟨rest, rfl⟩ := hbufs
    exact List.take_append_of_le_length hp
  have hflat : bufs.flatMap Buf.bytes <+: bufs'.flatMap Buf.bytes := by
    obtain ⟨rest, rfl⟩ := hbufs
    rw [List.flatMap_append]
    exact List.prefix_append _ _
  constructor
  · rw [hcopied, copyBytes_append]
    rcases hbytes with hnil | ⟨h0, hlog⟩
    · rw [hnil, List.append_nil]
      exact h.isPrefix.trans hflat
    · -- what was copied before are the buffers before `pend`
      have hold : copyBytes q.copied = (bufs'.take pend).flatMap Buf.bytes := by
        have hpre2 : (bufs'.take pend).flatMap Buf.bytes <+: bufs'.flatMap Buf.bytes := by
          conv_rhs => rw [← List.take_append_drop pend bufs', List.flatMap_append]
          exact List.prefix_append _ _
        have hlen := h.length
        rw [h0, Nat.add_zero, ← htake, ← List.length_flatMap] at hlen
        have hpre := List.prefix_of_prefix_length_le (h.isPrefix.trans hflat) hpre2 hlen.le
        exact hpre.eq_of_length hlen
      rw [hold]
      conv_rhs => rw [← List.take_append_drop pend bufs', List.flatMap_append]
      rwa [List.prefix_append_right_inj]
  · rw [hcopied, copyBytes_append, List.length_append, h.length, hcount, htake]

/-- Reads move the stream by what they copy. -/
theorem Receiving.count {q q' : Descq} {base base' pend k : ℕ} {bufs : List Buf} {L : ℕ}
    (h : Receiving q base pend bufs) (h' : Receiving q' base' (pend + k) bufs)
    (hdlen : q'.flq.pktDlen + L = q.flq.pktDlen) :
    ((bufs.take (pend + k)).map (·.bytes.length)).sum + q'.headOffset (pend + k)
      = ((bufs.take pend).map (·.bytes.length)).sum + q.headOffset pend + L := by
  have hsum : ∀ m, ((bufs.take m).map (·.bytes.length)).sum
      + ((bufs.drop m).map (·.bytes.length)).sum = (bufs.map (·.bytes.length)).sum := by
    intro m
    rw [← List.sum_append, ← List.map_append, List.take_append_drop]
  have h1 : q.flq.pktDlen + q.headOffset pend = _ := h.dlen
  have h2 : q'.flq.pktDlen + q'.headOffset (pend + k) = _ := h'.dlen
  have h3 := hsum pend
  have h4 := hsum (pend + k)
  omega

/-! ## Runs in which every read begins with a new buffer -/

/-- No receive buffer is read in part. -/
def Descq.HeadWhole (q : Descq) : Prop := (q.flq.sdesc q.flq.pidxPend).offset = 0

instance (q : Descq) : Decidable q.HeadWhole := inferInstanceAs (Decidable (_ = _))

/-- The lengths of the buffers not read yet once a service call has gone through the
entries due. -/
def Rx.unreadLens (s : Rx) (budget : ℤ) : List ℕ :=
  ((allBufs s.q.conf.c2hBufsz (s.sent.take (s.gone + s.due budget))).drop s.readBufs).map
    (·.bytes.length)

/-- No read of this step begins in the middle of a receive buffer: at its start no buffer
is read in part, and of the pending requests a service call serves only the last may end
within a buffer. -/
def RxWhole (s : Rx) : RxLabel → Prop
  | .submit req => req.write = true ∨ s.q.HeadWhole ∨ sglRoom req.sgl 0 = 0
  | .packetRead req => s.q.HeadWhole ∨ sglRoom req.sgl 0 = 0
  | .service budget _ => s.due budget = 0 ∨ s.q.pendList = [] ∨
      s.q.HeadWhole ∧ ReadsWhole (s.unreadLens budget) 0 s.q.pendList
  | _ => True

instance (s : Rx) (l : RxLabel) : Decidable (RxWhole s l) :=
  match l with
  | .submit _ => inferInstanceAs (Decidable (_ ∨ _))
  | .packetRead _ => inferInstanceAs (Decidable (_ ∨ _))
  | .service _ _ => inferInstanceAs (Decidable (_ ∨ _))
  | .pend _ | .wait _ | .dma _ _ | .publish _ => inferInstanceAs (Decidable True)

/-- The invariant of such runs. -/
structure StreamInv (s : Rx) (r pend : ℕ) : Prop where
  rx : RxInv s r pend
  stream : Streamed s.q pend (allBufs s.q.conf.c2hBufsz (s.sent.take r))
  parked : ∀ cb ∈ s.parked, CbOk cb
  pendOk : ∀ cb ∈ s.q.pendList, CbOk cb

theorem RxInv.headWhole {s : Rx} {r pend : ℕ} (h : RxInv s r pend) :
    s.q.HeadWhole ↔ s.q.headOffset pend = 0 := by
  unfold Descq.HeadWhole Descq.headOffset
  rw [h.serving.rx.pidxPend]

/-- A new control block is at the beginning of its list. -/
theorem cursorOk_new (req : Request) (id left : ℕ) :
    CursorOk { id := id, req := req, left := left } :=
  ⟨rfl, fun _ _ => Nat.zero_le _, fun _ => rfl⟩

/-- A read outside of servicing goes on with the stream. -/
theorem StreamInv.read {s s' : Rx} {r pend : ℕ} (h : StreamInv s r pend) {cb : SgtReqCb}
    (hc : CursorOk cb) (hd : SameDevice s s') (hq : s'.q = (descqStC2hRead s.q cb true true).1)
    (hwhole : s.q.HeadWhole ∨ cbRoom cb = 0) :
    ∃ k, RxInv s' r (pend + k) ∧
      Streamed s'.q (pend + k) (allBufs s'.q.conf.c2hBufsz (s'.sent.take r)) := by
  obtain ⟨k, log, hinv, hread⟩ := h.rx.read cb hd hq
  refine ⟨k, hinv, ?_⟩
  rw [hd.sent, hread.same.conf]
  refine h.stream.next List.prefix_rfl h.rx.serving.rx.fl.pend_le hread.copied
    (h.rx.serving.rx.count hread.rx hread.dlen) ?_
  rcases hwhole with h0 | h0
  · have h0' := h.rx.headWhole.mp h0
    exact .inr ⟨h0', hread.isPrefix h0'⟩
  · left
    have := (hread.cursor hc).2.1
    exact List.eq_nil_of_length_eq_zero (by omega)

/-- Steps that read nothing keep the stream. -/
theorem StreamInv.idle {s s' : Rx} {r pend : ℕ} (h : StreamInv s r pend)
    (hinv : RxInv s' r pend) (hd : SameDevice s s') (hconf : s'.q.conf = s.q.conf)
    (hcopied : s'.q.copied = s.q.copied) (hoff : s'.q.headOffset pend = s.q.headOffset pend)
    (hparked : ∀ cb ∈ s'.parked, cb ∈ s.parked)
    (hpend : ∀ cb ∈ s'.q.pendList, cb ∈ s.q.pendList ∨ cb ∈ s.parked) : StreamInv s' r pend := by
  refine ⟨hinv, ?_, fun cb hcb => h.parked cb (hparked cb hcb), fun cb hcb => ?_⟩
  · rw [hd.sent, hconf]
    exact ⟨by rw [hcopied]; exact h.stream.isPrefix, by rw [hcopied, hoff]; exact h.stream.length⟩
  · exact (hpend cb hcb).elim (h.pendOk cb) (h.parked cb)

/-- Steps that leave the queue alone. -/
theorem StreamInv.same {s s' : Rx} {r pend : ℕ} (h : StreamInv s r pend) (hd : SameDevice s s')
    (hq : s'.q = s.q) (hparked : ∀ cb ∈ s'.parked, cb ∈ s.parked) : StreamInv s' r pend := by
  refine h.idle (h.rx.same hd hq) hd (by rw [hq]) (by rw [hq]) (by rw [hq]) hparked ?_
  rw [hq]
  exact fun cb hcb => .inl hcb

theorem StreamInv.submit {s : Rx} {r pend : ℕ} (h : StreamInv s r pend) {req : Request}
    (hwhole : RxWhole s (.submit req)) : ∃ k, StreamInv (s.submit req) r (pend + k) := by
  obtain ⟨hd, hq⟩ := submit_rx s req
  split_ifs at hq with hwr
  · refine ⟨0, h.same hd hq ?_⟩
    unfold Rx.submit
    simp only [hwr, if_true]
    exact fun cb hcb => hcb
  · obtain ⟨k, hinv, hstream⟩ := h.read (cursorOk_new req s.nreq req.count) hd hq
      (hwhole.resolve_left hwr)
    obtain ⟨k', log, hread⟩ := h.rx.serving.rx.read h.rx.pidx (req.newC2hCb s.nreq) true true
      (fun _ => rfl)
    have hnew : CbOk (req.newC2hCb s.nreq) := ⟨cursorOk_new _ _ _, req.count_lt⟩
    refine ⟨k, hinv, hstream, ?_, ?_⟩
    · unfold Rx.submit submitStC2hRead
      simp only [hwr, Bool.false_eq_true, if_false]
      split_ifs
      · exact h.parked
      · intro cb hcb
        rcases List.mem_append.mp hcb with hcb | hcb
        · exact h.parked cb hcb
        · rw [List.mem_singleton.mp hcb]
          exact hread.cbOk hnew
    · rw [hq, hread.pendList]
      exact h.pendOk

theorem StreamInv.packetRead {s : Rx} {r pend : ℕ} (h : StreamInv s r pend) {req : Request}
    (hwhole : RxWhole s (.packetRead req)) :
    ∃ k, StreamInv (s.packetRead req) r (pend + k) := by
  obtain ⟨hd, hq | hq⟩ := packetRead_rx s req
  · exact ⟨0, h.same hd hq (fun cb hcb => hcb)⟩
  · obtain ⟨k, hinv, hstream⟩ := h.read (cursorOk_new req s.nreq 0) hd hq hwhole
    obtain ⟨k', log, hread⟩ := h.rx.serving.rx.read h.rx.pidx { id := s.nreq, req := req } true
      true (fun _ => rfl)
    refine ⟨k, hinv, hstream, h.parked, ?_⟩
    rw [hq, hread.pendList]
    exact h.pendOk

theorem StreamInv.pendCb {s : Rx} {r pend : ℕ} (h : StreamInv s r pend) {cb : SgtReqCb}
    (hcb : cb ∈ s.parked) : StreamInv (s.pendCb cb) r pend := by
  obtain ⟨hd, hparked, hq⟩ := pendCb_rx s cb
  have hsub : ∀ c ∈ (s.pendCb cb).parked, c ∈ s.parked := by
    rw [hparked]
    exact fun c hc => (List.mem_filter.mp hc).1
  rcases hq with hq | hq
  · exact h.same hd hq hsub
  · refine h.idle (h.rx.pendCb cb) hd (by rw [hq]; rfl) (by rw [hq]; rfl) (by rw [hq]; rfl) hsub ?_
    rw [hq]
    intro c hc
    rcases List.mem_append.mp hc with hc | hc
    · exact .inl hc
    · exact .inr (by rw [List.mem_singleton.mp hc]; exact hcb)

theorem StreamInv.wait {s : Rx} {r pend : ℕ} (h : StreamInv s r pend) (id : ℕ) :
    StreamInv (s.wait id) r pend := by
  obtain ⟨hd, hq | hq⟩ := wait_rx s id
  · exact h.same hd hq (fun c hc => hc)
  · refine h.idle (h.rx.wait id) hd (by rw [hq]; rfl) (by rw [hq]; rfl) (by rw [hq]; rfl)
      (fun c hc => hc) ?_
    rw [hq]
    exact fun c hc => .inl (List.mem_filter.mp hc).1

/-- A service call none of whose reads begins within a buffer. -/
theorem StreamInv.service {s : Rx} {r pend : ℕ} (h : StreamInv s r pend) {budget : ℤ}
    {fill : ℕ → FillOutcome} (hwhole : RxWhole s (.service budget fill)) :
    ∃ m k, StreamInv (s.step (.service budget fill)) (r + m) (pend + k) := by
  rcases h.rx.service budget fill with hq | ⟨k, log, q1, hinv, hpos, hserv, hsame, hdone⟩
  · have hd : SameDevice s (s.step (.service budget fill)) := ⟨rfl, rfl, rfl, rfl⟩
    exact ⟨0, 0, h.same hd hq (fun c hc => hc)⟩
  · refine ⟨_, k, hinv, ?_, h.parked, hdone.pendOk (by rw [hsame.pendList]; exact h.pendOk)⟩
    obtain ⟨hgone, hread⟩ := h.rx.counts
    have hconf := hdone.conf.trans hsame.conf
    have hoff : s.q.headOffset pend = q1.headOffset pend := by
      unfold Descq.headOffset
      rw [hsame.offset, hsame.conf]
    have hrx := hserv.rx
    have hrx' := hdone.serving.rx
    have hbytes := hdone.bytes
    rw [hsame.conf] at hrx hbytes
    rw [hconf] at hrx' ⊢
    have hbufs : allBufs s.q.conf.c2hBufsz (s.sent.take r)
        <+: allBufs s.q.conf.c2hBufsz (s.sent.take (r + s.due budget)) := by
      have := allBufs_isPrefix s.q.conf.c2hBufsz (s.sent.take (r + s.due budget)) r
      rwa [List.take_take, Nat.min_eq_left (Nat.le_add_right _ _)] at this
    refine h.stream.next hbufs h.rx.serving.rx.fl.pend_le
      (hdone.copied.trans (by rw [hsame.copied])) ?_ ?_
    · rw [hoff]
      exact hrx.count hrx' hdone.dlen
    · rcases hwhole with h0 | hnil | ⟨h0, hreads⟩
      · omega
      · left
        rw [hdone.nil (by rw [hsame.pendList]; exact hnil)]
        rfl
      · right
        have h0' := h.rx.headWhole.mp h0
        unfold Rx.unreadLens at hreads
        rw [hgone, hread] at hreads
        rw [hsame.pendList] at hbytes
        exact ⟨h0', hbytes h.pendOk (hoff ▸ h0') hreads⟩

/-- The device writing a packet keeps the stream. -/
theorem StreamInv.dma {s : Rx} {r pend : ℕ} (h : StreamInv s r pend) {word : ℕ}
    {payload : List UInt8} (hl : RxLegal s (.dma word payload)) :
    StreamInv (s.dma word payload) r pend := by
  have htake : (s.dma word payload).sent.take r = s.sent.take r :=
    List.take_append_of_le_length h.rx.serving.ring.le
  have hoff : (s.dma word payload).q.headOffset pend = s.q.headOffset pend := by
    refine fill_inv FlSdesc.offset s.q.flq.sdesc _ (fun w hw x => ?_) _
    obtain ⟨b, _, rfl⟩ := List.mem_map.mp hw
    rfl
  refine ⟨h.rx.dma hl, ?_, h.parked, h.pendOk⟩
  rw [htake]
  exact ⟨h.stream.isPrefix, by rw [hoff]; exact h.stream.length⟩

/-- **One step** none of whose reads begins within a buffer keeps the stream. -/
theorem streamInv_step {s : Rx} {l : RxLabel} (h : ∃ r pend, StreamInv s r pend)
    (hl : RxLegal s l ∧ RxWhole s l) : ∃ r pend, StreamInv (s.step l) r pend := by
  obtain ⟨r, pend, h⟩ := h
  cases l with
  | submit req =>
      obtain ⟨k, hk⟩ := h.submit hl.2
      exact ⟨r, _, hk⟩
  | pend id =>
      refine ⟨r, pend, ?_⟩
      rcases step_pend_cases s id with heq | ⟨cb, hcb, -, heq⟩
      · rw [heq]
        exact h
      · rw [heq]
        exact h.pendCb hcb
  | wait id => exact ⟨r, pend, h.wait id⟩
  | packetRead req =>
      obtain ⟨k, hk⟩ := h.packetRead hl.2
      exact ⟨r, _, hk⟩
  | service budget fill =>
      obtain ⟨m, k, hk⟩ := h.service hl.2
      exact ⟨_, _, hk⟩
  | dma word payload => exact ⟨r, pend, h.dma hl.1⟩
  | publish p =>
      exact ⟨r, pend, h.idle (h.rx.publish hl.1.1 hl.1.2) ⟨rfl, rfl, rfl, rfl⟩ rfl rfl rfl
        (fun cb hcb => hcb) (fun cb hcb => .inl hcb)⟩

/-! ## Results -/

/-- The payloads of the packets the device has received, in order. -/
def Rx.payloads (s : Rx) : List UInt8 :=
  s.sent.flatMap (fun c => if c.word.testBit 3 then c.payload else [])

/-- Cut into buffers the packets keep their bytes. -/
theorem flatMap_allBufs (full : ℕ) (sent : List Cmpl) : (allBufs full sent).flatMap Buf.bytes
    = sent.flatMap (fun c => if c.word.testBit 3 then c.payload else []) := by
  unfold allBufs
  rw [List.flatMap_assoc]
  refine List.flatMap_congr (fun c _ => ?_)
  unfold Cmpl.bufs
  split_ifs
  · exact flatMap_cutBufs full c.seq _ c.payload
  · rfl

theorem StartedRx.streamInv {q : Descq} (h : StartedRx q) : StreamInv { q := q } 0 0 := by
  have hinv := h.rxInv
  obtain ⟨hpend, hcopied⟩ := h.unused
  have hn := hinv.serving.rx.sizes.pos
  have hoff : q.headOffset 0 = 0 := (hinv.serving.rx.fl.clean 0 le_rfl (by omega)).offset
  refine ⟨hinv, ⟨?_, ?_⟩, nofun, ?_⟩
  · show copyBytes q.copied <+: _
    rw [hcopied]
    exact List.nil_prefix
  · show (copyBytes q.copied).length = 0 + q.headOffset 0
    rw [hcopied, hoff]
    rfl
  · show ∀ cb ∈ q.pendList, CbOk cb
    rw [hpend]
    exact nofun

/-- **The byte stream.**  As long as no read begins within a receive buffer, the bytes
copied into the requests are a beginning of the payloads of the packets. -/
theorem byte_stream {q : Descq} (h : StartedRx q) {evs : List RxLabel} {s : Rx}
    (hrun : Run Rx.step (fun s l => RxLegal s l ∧ RxWhole s l) { q := q } evs s) :
    copyBytes s.q.copied <+: s.payloads := by
  obtain ⟨r, pend, hinv⟩ := hrun.invariant (I := fun s => ∃ r pend, StreamInv s r pend)
    ⟨0, 0, h.streamInv⟩ (fun _ _ => streamInv_step)
  have hpre := hinv.stream.isPrefix.trans ((allBufs_isPrefix _ s.sent r).flatMap Buf.bytes)
  rwa [flatMap_allBufs] at hpre

/-- Two packets read as a whole and in one piece of 4 bytes. -/
theorem byte_stream_whole :
    let s := [RxLabel.submit (readReq 10), .pend 0,
      .dma (cmplWord true 10) ((List.range 10).map UInt8.ofNat),
      .dma (cmplWord true 6) ((List.range 6).map UInt8.ofNat), .publish 2,
      .service 8 (fun _ => .noMem), .submit (readReq 4)].foldl Rx.step startedRx
    (copyBytes s.q.copied).length = 14 ∧ copyBytes s.q.copied <+: s.payloads :=
  ⟨by decide +kernel, byte_stream startedRx_started (Run.of_admits _ (by decide +kernel))⟩

/-- A packet of 10 bytes is read by requests of 4 and 6 bytes: the second one gets the
first bytes again. -/
theorem resumed_read_repeats :
    ¬ ∀ (q : Descq) (evs : List RxLabel) (s : Rx), StartedRx q →
      Run Rx.step RxLegal { q := q } evs s → copyBytes s.q.copied <+: s.payloads := by
  intro h
  have hrun := h _ _ _ startedRx_started (Run.of_admits
    [.submit (readReq 4), .pend 0, .dma (cmplWord true 10) ((List.range 10).map UInt8.ofNat),
      .publish 1, .service 8 (fun _ => .noMem), .submit (readReq 6)] (by decide +kernel))
  exact absurd hrun (by decide +kernel)

end Qdma
