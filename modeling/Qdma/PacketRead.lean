/-
# What a packet read returns

`qdma_queue_packet_read` reads what is there into the scatter-gather list of its request and
returns `req->count - cb->left`.  It clears the whole control block first, so `left` begins
at 0 and not at `count`, as `qdma_request_submit_st_c2h` has it: what is returned is the
count and the copied bytes together, except for an empty request.
-/
import Qdma.ByteStream
import Qdma.RxReports

namespace Qdma

open Exec

/-! ## The unread bytes -/

/-- The lengths of the `n` buffers that a read meets from the one at `i` on. -/
def Descq.lensFrom (d : Descq) : ℕ → ℕ → List ℕ
  | 0, _ => []
  | n + 1, i => (d.flq.sdesc i).len :: d.lensFrom n (ringIdxIncr i 1 d.conf.rngsz)

/-- The unread bytes of the free list. -/
def Descq.unreadBytes (d : Descq) : ℕ :=
  (d.lensFrom (ringIdxDelta d.pidx d.flq.pidxPend d.flq.size) d.flq.pidxPend).sum

theorem lensFrom_congr {d d' : Descq} (hsdesc : d'.flq.sdesc = d.flq.sdesc)
    (hconf : d'.conf = d.conf) (n i : ℕ) : d'.lensFrom n i = d.lensFrom n i := by
  induction n generalizing i with
  | zero => rfl
  | succ n ih => rw [Descq.lensFrom, Descq.lensFrom, hsdesc, hconf, ih]

/-! ## Copying stops at the shorter of the two -/

theorem nextBuf_flq (r : Rd) : r.nextBuf.d.flq = r.d.flq := by
  unfold Rd.nextBuf
  simp only
  split_ifs <;> rfl

theorem nextBuf_conf (r : Rd) : r.nextBuf.d.conf = r.d.conf := by
  unfold Rd.nextBuf
  simp only
  split_ifs <;> rfl

/-- **A read copies until the list or the buffers are used up**, whatever the state of the
queue. -/
theorem readLoop_min (n : ℕ) (r : Rd) {sgl : List SwSg}
    (hcur : Cursor sgl r.tsg r.tsgoff r.j) :
    (readLoop n r).copied
      = r.copied + min (sglRoom r.tsg r.tsgoff) (r.d.lensFrom n r.pidx).sum := by
  induction n generalizing r with
  | zero => exact (Nat.min_zero _).symm ▸ rfl
  | succ n ih =>
      rw [readLoop]
      by_cases h0 : r.tsg.isEmpty = true
      · rw [if_pos h0, List.isEmpty_iff.mp h0]
        have hroom : sglRoom [] r.tsgoff = 0 := Nat.zero_sub _
        rw [hroom, Nat.zero_min]
        rfl
      · rw [if_neg h0]
        obtain ⟨m, log, tsg, tsgoff, j, hm, heq, _, hspec⟩ := copyOut_spec
          (r.d.flq.sdesc r.pidx).page r.tsg (r.d.flq.sdesc r.pidx).len { r with foff := 0 } rfl
        obtain ⟨hcur', hend, hroom⟩ := hspec sgl hcur
        have hroom' : m + sglRoom tsg tsgoff = sglRoom r.tsg r.tsgoff := hroom
        simp only
        rw [heq, Descq.lensFrom, List.sum_cons, ← hroom']
        set r1 := { r with foff := 0 }.copyTo m log tsg tsgoff j with hr1
        have hfoff : r1.foff = m := Nat.zero_add m
        have hcopied : r1.copied = r.copied + m := rfl
        by_cases h1 : m = (r.d.flq.sdesc r.pidx).len
        · -- the buffer is read to its end: the next one takes over
          have hlens : r1.nextBuf.d.lensFrom n r1.nextBuf.pidx
              = r.d.lensFrom n (ringIdxIncr r.pidx 1 r.d.conf.rngsz) :=
            lensFrom_congr (d := r.d) (congrArg Flq.sdesc (nextBuf_flq r1)) (nextBuf_conf r1) n
              (ringIdxIncr r.pidx 1 r.d.conf.rngsz)
          have hrest : (readLoop n r1.nextBuf).copied
              = r1.copied + min (sglRoom tsg tsgoff) (r1.nextBuf.d.lensFrom n r1.nextBuf.pidx).sum :=
            ih r1.nextBuf hcur'
          rw [if_pos (hfoff.trans h1), hrest, hlens, hcopied, ← h1]
          omega
        · -- it is not, and so the list is used up
          have hnil : tsg = [] := hend.resolve_left h1
          have hnone : sglRoom tsg tsgoff = 0 := by rw [hnil]; exact Nat.zero_sub _
          rw [if_neg (fun h => h1 (hfoff.symm.trans h)), hnone, hcopied]
          omega

/-! ## The call -/

/-- The control block of a packet read: `memset(cb, 0, QDMA_REQ_OPAQUE_SIZE)`. -/
def Request.clearedCb (req : Request) (id : ℕ) : SgtReqCb := { id := id, req := req }

/-- **What a packet read copies**, as counted by the caller's list, by the result of the read
and by `left`. -/
theorem packetRead_copies (d : Descq) (id : ℕ) {req : Request}
    (hsize : req.count = (req.sgl.map SwSg.len).sum) :
    copyCount d (descqStC2hRead d (req.clearedCb id) true true).1 = min req.count d.unreadBytes ∧
      (descqStC2hRead d (req.clearedCb id) true true).2.2 = (min req.count d.unreadBytes : ℕ) ∧
      (descqStC2hRead d (req.clearedCb id) true true).2.1.left
        = u32Sub 0 (min req.count d.unreadBytes) := by
  unfold descqStC2hRead
  simp only
  by_cases h0 : ringIdxDelta d.pidx d.flq.pidxPend d.flq.size = 0
  · have hunread : d.unreadBytes = 0 := by
      unfold Descq.unreadBytes
      rw [h0]
      rfl
    rw [if_pos h0, hunread, Nat.min_zero]
    refine ⟨?_, rfl, rfl⟩
    unfold copyCount
    rw [List.drop_length]
    rfl
  · have hidx : ¬((req.clearedCb id).sgIdx ≠ 0
        ∧ (req.clearedCb id).req.sgl.drop (req.clearedCb id).sgIdx = []) := fun h => h.1 rfl
    rw [if_neg h0, if_neg hidx]
    set r0 : Rd := { d := d, pidx := d.flq.pidxPend,
                     tsg := (req.clearedCb id).req.sgl.drop (req.clearedCb id).sgIdx,
                     tsgoff := (req.clearedCb id).sgOffset, j := (req.clearedCb id).sgIdx } with hr0
    set n := ringIdxDelta d.pidx d.flq.pidxPend d.flq.size with hn
    -- the loop copies the lesser of what is asked for and what is there
    have hcount : (readLoop n r0).copied = min req.count d.unreadBytes := by
      have hmin := readLoop_min n r0 (cursorOk_new req id 0)
      have hroom : sglRoom r0.tsg r0.tsgoff = req.count := hsize.symm
      rw [hroom] at hmin
      rw [hmin]
      exact Nat.zero_add _
    obtain ⟨log, hlog⟩ := copies_readLoop n r0
    have hlen : (copyBytes log).length = (readLoop n r0).copied := by
      rw [hlog.count]
      exact (Nat.zero_add _).symm
    refine ⟨?_, ?_, ?_⟩
    · unfold copyCount
      rw [readEnd_copied, hlog.copied, List.drop_left, hlen, hcount]
    · rw [hcount]
    · rw [hcount]
      rfl

/-- A packet read returns the bytes it copied: as many as asked for or as many as there are,
and a negative value just when nothing is copied because of an error. -/
structure ReturnsCopied (d : Descq) (id : ℕ) (req : Request) : Prop where
  copied : copyCount d (qdmaQueuePacketRead d id req).1 = min req.count d.unreadBytes
  rv : (qdmaQueuePacketRead d id req).2 = copyCount d (qdmaQueuePacketRead d id req).1
  error : (qdmaQueuePacketRead d id req).2 < 0 ↔
    copyCount d (qdmaQueuePacketRead d id req).1 = 0 ∧
      (descqStC2hRead d (req.clearedCb id) true true).2.2 < 0

/-- On an ST C2H queue the call is the read. -/
theorem packetRead_eq {d : Descq} (hst : d.conf.st = true) (hc2h : d.conf.c2h = true) (id : ℕ)
    (req : Request) :
    qdmaQueuePacketRead d id req
      = ((descqStC2hRead d (req.clearedCb id) true true).1,
          i32 (u32Sub req.count (descqStC2hRead d (req.clearedCb id) true true).2.1.left)) := by
  unfold qdmaQueuePacketRead
  rw [if_neg (by rw [hst, hc2h]; decide)]
  rfl

/-- `count - (0 - n)` is the sum of the two. -/
theorem i32_count_left {count n : ℕ} (hlt : count < 2 ^ 32) (hn : n ≤ count) :
    i32 (u32Sub count (u32Sub 0 n)) = n ↔ count = 0 := by
  unfold i32 u32Sub
  constructor
  · intro h
    split_ifs at h <;> omega
  · rintro rfl
    obtain rfl : n = 0 := by omega
    decide

/-- **A packet read returns what it copied just when it is asked for nothing.** -/
theorem packet_read_returns_iff {d : Descq} (hst : d.conf.st = true) (hc2h : d.conf.c2h = true)
    (id : ℕ) {req : Request} (hsize : req.count = (req.sgl.map SwSg.len).sum) :
    ReturnsCopied d id req ↔ req.count = 0 := by
  obtain ⟨hcopied, hrv, hleft⟩ := packetRead_copies d id hsize
  have hle : min req.count d.unreadBytes ≤ req.count := Nat.min_le_left _ _
  have heq := packetRead_eq hst hc2h id req
  have hq : copyCount d (qdmaQueuePacketRead d id req).1 = min req.count d.unreadBytes := by
    rw [heq]
    exact hcopied
  constructor
  · intro h
    have hret := h.rv
    rw [hq, heq] at hret
    simp only [hleft] at hret
    exact (i32_count_left req.count_lt hle).mp hret
  · intro h
    have hret : (qdmaQueuePacketRead d id req).2 = (min req.count d.unreadBytes : ℕ) := by
      rw [heq]
      simp only [hleft]
      exact (i32_count_left req.count_lt hle).mpr h
    refine ⟨hq, by rw [hret, hq], ?_⟩
    rw [hret, hrv]
    omega

/-- A queue that holds a packet of 10 bytes, 4 of them read. -/
def sixUnread : Rx :=
  [RxLabel.submit (readReq 4), .pend 0, .dma (cmplWord true 10) (List.replicate 10 7),
    .publish 1, .service 8 (fun _ => .noMem)].foldl Rx.step startedRx

theorem packet_read_returns_none : ReturnsCopied sixUnread.q 1 (readReq 0) :=
  (packet_read_returns_iff (d := sixUnread.q) (by decide +kernel) (by decide +kernel) 1
    (by decide)).mpr rfl

/-- A packet read of 4 bytes copies 4 and returns 8. -/
theorem packet_read_adds_count :
    ¬ ∀ (q : Descq) (evs : List RxLabel) (s : Rx) (id : ℕ) (req : Request), StartedRx q →
      Run Rx.step RxLegal { q := q } evs s → s.q.online = true →
      req.count = (req.sgl.map SwSg.len).sum → ReturnsCopied s.q id req := by
  intro h
  have hret := (h startedRx.q _ sixUnread 1 (readReq 4) startedRx_started
    (Run.of_admits _ (by decide +kernel)) (by decide +kernel) (by decide)).rv
  have hrv : (qdmaQueuePacketRead sixUnread.q 1 (readReq 4)).2 = 8 := by decide +kernel
  have hcopied : copyCount sixUnread.q (qdmaQueuePacketRead sixUnread.q 1 (readReq 4)).1 = 4 := by
    decide +kernel
  rw [hrv, hcopied] at hret
  exact absurd hret (by decide)

end Qdma
