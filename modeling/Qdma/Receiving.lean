/-
# The receive state of an ST C2H queue

`Receiving` is the state of the receive side between two steps of the code: the law of
the free list together with the counters kept beside it (`pidx_pend`, `pkt_dlen`,
`cidx_wrb_pend`).  `Receiving.read` says what one `descq_st_c2h_read` does to it,
`Receiving.procDflt` what serving all pending requests does, and
`Receiving.procLoop` what going through completion entries does.
-/
import Qdma.FreeList
import Qdma.Blocks
import Mathlib.Algebra.Order.BigOperators.Group.List

namespace Qdma

open RingIndex

/-! ## The receive state -/

/-- The free list obeys its law, and the counters agree with it. -/
structure Receiving (q : Descq) (base pend : ℕ) (bufs : List Buf) : Prop where
  sizes : RxSizes q
  fl : q.FreeList base pend bufs
  pidxPend : q.flq.pidxPend = pend % q.conf.rngsz
  dlen : q.flq.pktDlen + (q.flq.sdesc (pend % q.conf.rngsz)).offset
    = ((bufs.drop pend).map (·.bytes.length)).sum
  last : q.cidxWrbPend = lastSeq 0 (bufs.take pend) % q.conf.rngszWrb
  small : ∀ b ∈ bufs, b.bytes.length ≤ 65535
  warned : q.warned = false

/-- The parts of a queue that reading leaves alone. -/
structure SameDev (q q' : Descq) : Prop where
  conf : q'.conf = q.conf
  err : q'.err = q.err
  color : q'.color = q.color
  online : q'.online = q.online
  pidx : q'.pidx = q.pidx
  cidxWrb : q'.cidxWrb = q.cidxWrb
  wbEntryLen : q'.wbEntryLen = q.wbEntryLen
  descWrb : q'.descWrb = q.descWrb
  descWrbCur : q'.descWrbCur = q.descWrbCur
  page : ∀ i, (q'.flq.sdesc i).page = (q.flq.sdesc i).page

theorem SameDev.refl (q : Descq) : SameDev q q :=
  ⟨rfl, rfl, rfl, rfl, rfl, rfl, rfl, rfl, rfl, fun _ => rfl⟩

theorem SameDev.trans {a b c : Descq} (h : SameDev a b) (h' : SameDev b c) : SameDev a c :=
  ⟨h'.conf.trans h.conf, h'.err.trans h.err, h'.color.trans h.color,
    h'.online.trans h.online, h'.pidx.trans h.pidx, h'.cidxWrb.trans h.cidxWrb,
    h'.wbEntryLen.trans h.wbEntryLen, h'.descWrb.trans h.descWrb,
    h'.descWrbCur.trans h.descWrbCur, fun i => (h'.page i).trans (h.page i)⟩

/-- The lists of requests are no part of the receive state. -/
theorem Receiving.congr {q q' : Descq} {base pend : ℕ} {bufs : List Buf}
    (h : Receiving q base pend bufs) (hconf : q'.conf = q.conf) (hflq : q'.flq = q.flq)
    (havail : q'.avail = q.avail) (hlast : q'.cidxWrbPend = q.cidxWrbPend)
    (hwarned : q'.warned = q.warned) : Receiving q' base pend bufs := by
  obtain ⟨h1, h2, h3, h4, h5, h6, h7⟩ := h
  refine ⟨h1.congr hconf (by rw [hflq]) (by rw [hflq]) (by rw [hflq]), ?_, ?_, ?_, ?_, h6, ?_⟩
  · unfold Descq.FreeList Descq.bufAt at h2 ⊢
    rw [hconf, hflq, havail]
    exact h2
  · rw [hflq, hconf]
    exact h3
  · rw [hflq, hconf]
    exact h4
  · rw [hlast, hconf]
    exact h5
  · rw [hwarned]
    exact h7

/-! ## One read -/

/-- A queue after a read. -/
def Descq.afterRead (q : Descq) (s : ℕ → FlSdesc) (x : ℕ → SdescInfo) (avail pidxPend pktDlen
    cidxWrbPend : ℕ) (log : List Copy) (regs : Regs) : Descq :=
  { q with
    flq := { q.flq with sdesc := s, sdescInfo := x, pidxPend := pidxPend, pktDlen := pktDlen }
    avail := avail
    cidxWrbPend := cidxWrbPend
    copied := q.copied ++ log
    regs := regs }

/-- Leaving a buffer partway; nothing changes when it was not begun. -/
theorem leavePartway_eq (f : Flq) (i p : ℕ) :
    f.leavePartway i p = f.setSdesc i
      { f.sdesc i with offset := (f.sdesc i).offset + p, len := (f.sdesc i).len - p } := by
  unfold Flq.leavePartway
  split_ifs with h
  · rfl
  · rw [not_not.mp h]
    unfold Flq.setSdesc
    rw [Nat.add_zero, Nat.sub_zero, Function.update_eq_self]

/-- The refill of a read. -/
theorem readRefill_spec {r : Rd} {base pend : ℕ} {bufs : List Buf} (refill : Bool)
    (hsz : RxSizes r.d) (h : r.d.FreeList base (pend + r.i) bufs)
    (hp : r.d.flq.pidxPend = pend % r.d.conf.rngsz) (hbase : refill = true → base = pend) :
    ∃ s x a, readRefill r refill = r.d.withBufs s x a ∧
      (r.d.withBufs s x a).FreeList (if refill then pend + r.i else base) (pend + r.i) bufs ∧
      (∀ i, (s i).page = (r.d.flq.sdesc i).page) ∧
      ∀ j, pend + r.i ≤ j → j < base + r.d.conf.rngsz →
        s (j % r.d.conf.rngsz) = r.d.flq.sdesc (j % r.d.conf.rngsz) := by
  have hle := h.base_le
  unfold readRefill
  cases refill with
  | false => exact ⟨_, _, _, rfl, h, fun _ => rfl, fun _ _ _ => rfl⟩
  | true =>
      have hb := hbase rfl
      subst hb
      by_cases h0 : r.i = 0
      · simp only [h0, ne_eq, not_true_eq_false, decide_false, Bool.and_false,
          Bool.false_eq_true, if_false, if_true, Nat.add_zero] at h ⊢
        exact ⟨_, _, _, rfl, h, fun _ => rfl, fun _ _ _ => rfl⟩
      · have hidx : (if base % r.d.conf.rngsz = r.d.conf.rngsz then 0
            else base % r.d.conf.rngsz) = base % r.d.conf.rngsz :=
          if_neg (Nat.mod_lt base hsz.pos).ne
        obtain ⟨s, x, a, heq, hfl, hpage, hkeep⟩ :=
          FreeList.refill (fun _ => .noMem) r.i hsz h le_rfl hidx
        refine ⟨s, x, a, ?_, hfl, hpage, hkeep⟩
        rw [hp]
        simp only [h0, ne_eq, not_false_eq_true, decide_true, Bool.and_true, if_true]
        exact heq

/-- The queue with other doorbells. -/
def Descq.withRegs (d : Descq) (regs : Regs) : Descq := { d with regs := regs }

/-- The doorbells of a read expose the buffers up to the one before `pidx_pend`. -/
theorem readBells_spec {d : Descq} {i : ℕ} (updatePidx : Bool) (hsz : RxSizes d)
    (hi : i < d.conf.rngsz) (hp : d.flq.pidxPend = i) :
    ∃ regs, readBells d updatePidx = d.withRegs regs ∧
      (if updatePidx then regs.pidx = adv d.conf.rngsz i (d.conf.rngsz - 1) ∧
        regs.wrbCidx = d.cidxWrbPend else regs = d.regs) := by
  have hmax := hsz.le_max
  cases updatePidx with
  | false => exact ⟨_, rfl, rfl⟩
  | true =>
      refine ⟨_, rfl, ?_, rfl⟩
      show ringIdxDecr d.flq.pidxPend 1 d.flq.size = _
      rw [hp, hsz.size, ringIdxDecr_one_eq_adv (by omega) hi]

/-- **The last steps of a read**, from where its loop stopped: `k` buffers are read to
their end and `p` bytes of the next one. -/
theorem readEnd_spec {r : Rd} {base pend : ℕ} {bufs : List Buf} (updatePidx refill : Bool)
    (hsz : RxSizes r.d) (h : r.d.FreeList base (pend + r.i) bufs)
    (hpend : r.d.flq.pidxPend = pend % r.d.conf.rngsz)
    (hpidx : r.pidx = (pend + r.i) % r.d.conf.rngsz)
    (hle : base ≤ pend) (hbase : refill = true → base = pend)
    (hpart : r.foff = 0 ∨ pend + r.i < bufs.length ∧
      r.foff < (r.d.flq.sdesc ((pend + r.i) % r.d.conf.rngsz)).len) :
    ∃ s x a regs, readEnd r updatePidx refill =
        r.d.afterRead s x a ((pend + r.i) % r.d.conf.rngsz) (u32Sub r.d.flq.pktDlen r.copied)
          r.d.cidxWrbPend [] regs ∧
      (r.d.withBufs s x a).FreeList (if refill then pend + r.i else base) (pend + r.i) bufs ∧
      (∀ i, (s i).page = (r.d.flq.sdesc i).page) ∧
      (s ((pend + r.i) % r.d.conf.rngsz)).offset
        = (r.d.flq.sdesc ((pend + r.i) % r.d.conf.rngsz)).offset + r.foff ∧
      (if updatePidx then
        regs.pidx = (pend + r.i + r.d.conf.rngsz - 1) % r.d.conf.rngsz ∧
          regs.wrbCidx = r.d.cidxWrbPend
      else regs = r.d.regs) := by
  have hn := hsz.pos
  have hmax := hsz.le_max
  have hb := h.base_le
  have hp := h.pend_le
  have hl := h.lt
  obtain ⟨s, x, a, heq, hfl, hpage, hkeep⟩ := readRefill_spec refill hsz h hpend hbase
  set n := r.d.conf.rngsz with hnn
  set i := (pend + r.i) % n with hi
  have hin : i < n := Nat.mod_lt _ hn
  have hsi : s i = r.d.flq.sdesc i := hkeep (pend + r.i) le_rfl (by omega)
  have hincr : ringIdxIncr r.d.flq.pidxPend r.i r.d.flq.size = i := by
    rw [hpend, hsz.size, ringIdxIncr_eq_adv (by omega) (Nat.mod_lt _ hn) (by omega), adv_mod]
  set s' := Function.update s i { s i with offset := (s i).offset + r.foff,
                                           len := (s i).len - r.foff } with hs'
  set d3 := (r.d.withBufs s x a).setFlq { (r.d.withBufs s x a).flq with pidxPend := i } with hd3
  set d4 := d3.setFlq { d3.flq with sdesc := s' } with hd4
  have hsz4 : RxSizes d4 := hsz.congr rfl rfl rfl rfl
  obtain ⟨regs, hbells, hregs⟩ := readBells_spec (i := i) updatePidx hsz4 hin rfl
  refine ⟨s', x, a, regs, ?_, ?_, ?_, ?_, ?_⟩
  · unfold readEnd
    rw [heq, hpidx]
    have hincr' : ringIdxIncr (r.d.withBufs s x a).flq.pidxPend r.i (r.d.withBufs s x a).flq.size
        = i := hincr
    have hd : d3.setFlq (d3.flq.leavePartway i r.foff) = d4 := by
      rw [leavePartway_eq]
      rfl
    simp only [hincr']
    rw [← hd3, hd, hbells]
    unfold Descq.afterRead
    rw [List.append_nil]
    rfl
  · have hnew : (r.d.withBufs s' x a).bufAt
        = Function.update (r.d.withBufs s x a).bufAt i (s' i, x i) := by
      funext k
      by_cases hk : k = i
      · rw [hk, Function.update_self]
        rfl
      · rw [Function.update_of_ne hk]
        exact Prod.ext (Function.update_of_ne hk _ _) rfl
    rcases hpart with h0 | ⟨hlt, hpl⟩
    · -- no buffer was begun
      have hs0 : s' = s := by
        rw [hs', h0, Nat.add_zero, Nat.sub_zero, Function.update_eq_self]
      rw [hs0]
      exact hfl
    · have hold := hfl.holds (pend + r.i) hlt le_rfl
      unfold Descq.FreeList
      rw [hnew]
      refine FreeList.partway hfl hlt ⟨hold.valid, hold.eop, hold.cidx, ?_, ?_⟩
      · have hlen : (s i).offset + (s i).len = _ := hold.len
        rw [hs', Function.update_self, ← hlen]
        rw [← hsi] at hpl
        show (s i).offset + r.foff + ((s i).len - r.foff) = (s i).offset + (s i).len
        omega
      · rw [hs', Function.update_self]
        exact hold.page
  · intro k
    by_cases hk : k = i
    · rw [hk, hs', Function.update_self]
      exact hpage i
    · rw [hs', Function.update_of_ne hk]
      exact hpage k
  · rw [hs', Function.update_self]
    show (s i).offset + r.foff = _
    rw [hsi]
  · have hadv : adv n i (n - 1) = (pend + r.i + n - 1) % n := by
      rw [hi, adv_mod]
      congr 1
      omega
    rw [← hadv]
    exact hregs

/-- The bytes unread are what the packets brought less what is read of the first buffer. -/
theorem Receiving.dlen_eq {q : Descq} {base pend : ℕ} {bufs : List Buf}
    (h : Receiving q base pend bufs) :
    q.flq.pktDlen = ((unreadBufs q.conf.rngsz q.bufAt pend bufs.length).map (·.1.len)).sum := by
  have hd := h.dlen
  have hp := h.fl.pend_le
  have hl := h.fl.lt
  have hb := h.fl.base_le
  obtain ⟨hall, hwhole⟩ := h.fl.unread
  rcases Nat.eq_or_lt_of_le hp with heq | hlt
  · have hcl := h.fl.clean pend (by omega) (by omega)
    have hoff : (q.flq.sdesc (pend % q.conf.rngsz)).offset = 0 := hcl.offset
    rw [hoff, heq, List.drop_length] at hd
    rw [heq]
    simpa [unreadBufs] using hd
  · obtain ⟨m, hm⟩ : ∃ m, bufs.length - pend = m + 1 := ⟨bufs.length - pend - 1, by omega⟩
    have hcons : unreadBufs q.conf.rngsz q.bufAt pend bufs.length
        = q.bufAt (pend % q.conf.rngsz) :: (List.range m).map
          (fun j => q.bufAt ((pend + (j + 1)) % q.conf.rngsz)) := by
      unfold unreadBufs
      rw [hm, List.range_succ_eq_map, List.map_cons, List.map_map, Nat.add_zero]
      rfl
    rw [hcons] at hall hwhole ⊢
    obtain ⟨b, bs, hbs⟩ : ∃ b bs, bufs.drop pend = b :: bs := by
      cases hdrop : bufs.drop pend with
      | nil => rw [hdrop] at hall; cases hall
      | cons b bs => exact ⟨b, bs, rfl⟩
    rw [hbs] at hall hd
    have hsum := sum_len_add_offset hall hwhole
    have hoff : (q.bufAt (pend % q.conf.rngsz)).1.offset
        = (q.flq.sdesc (pend % q.conf.rngsz)).offset := rfl
    omega

/-- The bytes of less than a ring of buffers fit a 32-bit counter. -/
theorem sum_bytes_lt {bufs : List Buf} {pend : ℕ} (hsmall : ∀ b ∈ bufs, b.bytes.length ≤ 65535)
    (hlen : bufs.length - pend ≤ 65534) :
    ((bufs.drop pend).map (·.bytes.length)).sum < 2 ^ 32 := by
  have hle : ((bufs.drop pend).map (·.bytes.length)).sum
      ≤ ((bufs.drop pend).map (·.bytes.length)).length • 65535 := by
    refine List.sum_le_card_nsmul _ _ (fun m hm => ?_)
    obtain ⟨b, hb, rfl⟩ := List.mem_map.mp hm
    exact hsmall b (List.mem_of_mem_drop hb)
  rw [List.length_map, List.length_drop, nsmul_eq_mul, Nat.cast_id] at hle
  have hmul : (bufs.length - pend) * 65535 ≤ 65534 * 65535 := Nat.mul_le_mul_right _ hlen
  omega

theorem Receiving.dlen_lt {q : Descq} {base pend : ℕ} {bufs : List Buf}
    (h : Receiving q base pend bufs) :
    ((bufs.drop pend).map (·.bytes.length)).sum < 2 ^ 32 := by
  have hp := h.fl.pend_le
  have hl := h.fl.lt
  have hb := h.fl.base_le
  have hn := h.sizes.le_max
  exact sum_bytes_lt h.small (by omega)

/-- A control block whose position lies within its scatter-gather list. -/
def CursorOk (cb : SgtReqCb) : Prop :=
  Cursor cb.req.sgl (cb.req.sgl.drop cb.sgIdx) cb.sgOffset cb.sgIdx

/-- The room left in the scatter-gather list of a request. -/
def cbRoom (cb : SgtReqCb) : ℕ := sglRoom (cb.req.sgl.drop cb.sgIdx) cb.sgOffset

/-- How much of the first unread buffer is read. -/
def Descq.headOffset (q : Descq) (pend : ℕ) : ℕ := (q.flq.sdesc (pend % q.conf.rngsz)).offset

/-- What a read leaves of the bytes of a buffer it stops in: the next one begins with the
page again. -/
def keepFront (p : ℕ) (c : List UInt8) : List UInt8 := c.take (c.length - p)

/-- The bytes the next reads find in the buffers, the first of them read up to `o`. -/
def leftBytes (o : ℕ) : List Buf → List (List UInt8)
  | [] => []
  | b :: bs => b.bytes.take (b.bytes.length - o) :: bs.map Buf.bytes

/-- The bytes the next reads find in the buffers from `pend` on, but for empty ones. -/
def Descq.unread (q : Descq) (pend : ℕ) (bufs : List Buf) : List (List UInt8) :=
  Blocks.solid (leftBytes (q.headOffset pend) (bufs.drop pend))

/-- What one read did: `k` buffers are read to their end, `log` is what it copied. -/
structure ReadDone (q : Descq) (cb : SgtReqCb) (updatePidx refill : Bool) (base pend : ℕ)
    (bufs : List Buf) (k : ℕ) (log : List Copy) (q' : Descq) (cb' : SgtReqCb) : Prop where
  rx : Receiving q' (if refill then pend + k else base) (pend + k) bufs
  same : SameDev q q'
  pendList : q'.pendList = q.pendList
  copied : q'.copied = q.copied ++ log
  dlen : q'.flq.pktDlen + (copyBytes log).length = q.flq.pktDlen
  regs : q'.regs = q.regs ∧ k = 0 ∨
    (if updatePidx then q'.regs.pidx = (pend + k + q.conf.rngsz - 1) % q.conf.rngsz ∧
      q'.regs.wrbCidx = q'.cidxWrbPend else q'.regs = q.regs)
  cb_eq : cb'.id = cb.id ∧ cb'.req = cb.req
  left : cb.left < 2 ^ 32 → cb'.left = u32Sub cb.left (copyBytes log).length
  bytes : q.headOffset pend = 0 → copyBytes log =
    ((bufs.drop pend).take k).flatMap Buf.bytes ++
      ((bufs.drop (pend + k)).flatMap Buf.bytes).take (q'.headOffset (pend + k))
  cursor : CursorOk cb → CursorOk cb' ∧
    (copyBytes log).length + cbRoom cb' = cbRoom cb ∧
    (pend + k = bufs.length ∨ cbRoom cb' = 0)
  drawn : CursorOk cb → Blocks.draw keepFront (cbRoom cb) (q.unread pend bufs)
    = (copyBytes log, cbRoom cb', q'.unread (pend + k) bufs)
  whole : q.headOffset pend = 0 → CursorOk cb →
    Blocks.StopsAtBlock ((bufs.drop pend).map (·.bytes.length)) (cbRoom cb) →
      q'.headOffset (pend + k) = 0

/-- A read that finds nothing to do. -/
theorem ReadDone.idle {q : Descq} {base pend : ℕ} {bufs : List Buf}
    (h : Receiving q base pend bufs) (cb : SgtReqCb) (updatePidx refill : Bool)
    (hbase : refill = true → base = pend)
    (hend : CursorOk cb → pend = bufs.length ∨ cbRoom cb = 0) :
    ReadDone q cb updatePidx refill base pend bufs 0 [] q cb := by
  refine ⟨?_, SameDev.refl q, rfl, (List.append_nil _).symm, rfl, .inl ⟨rfl, rfl⟩, ⟨rfl, rfl⟩,
    fun hlt => (u32Sub_of_le hlt (Nat.zero_le _)).symm, ?_, ?_, ?_, ?_⟩
  · cases refill with
    | false => exact h
    | true =>
        have hb := hbase rfl
        subst hb
        exact h
  · intro h0
    rw [Nat.add_zero, h0, List.take_zero]
    rfl
  · intro hc
    exact ⟨hc, Nat.zero_add _, hend hc⟩
  · intro hc
    rcases hend hc with heq | heq
    · have hnil : q.unread pend bufs = [] := by
        unfold Descq.unread
        rw [heq, List.drop_length]
        rfl
      rw [Nat.add_zero, hnil]
      rfl
    · rw [Nat.add_zero, heq]
      cases q.unread pend bufs <;> rfl
  · intro h0 _ _
    exact h0

/-- The part taken of the buffer left partway is the beginning of what is unread there. -/
theorem LeftAt.part_eq {nw : ℕ} {post : List RxBuf} {p : ℕ} {part : List UInt8} {bs : List Buf}
    (h : LeftAt post p part) (hpost : List.Forall₂ (Holds nw) post bs) :
    part = (bs.flatMap Buf.bytes).take p ∧ part.length = p ∧ p ≤ (post.map (·.1.len)).sum := by
  rcases h with ⟨rfl, rfl⟩ | ⟨b, t, rfl, hlt, rfl⟩
  · exact ⟨(List.take_zero ..).symm, rfl, Nat.zero_le _⟩
  · cases hpost with
    | @cons _ c _ cs hbc _ =>
        have hlen := hbc.len
        have hple : p ≤ c.bytes.length := by omega
        refine ⟨?_, length_pageBytes _ _ _, ?_⟩
        · rw [List.flatMap_cons, List.take_append_of_le_length hple, pageBytes_take _ hple,
            hbc.page]
        · rw [List.map_cons, List.sum_cons]
          omega

/-- Leaving a buffer before its end when the list stops at a boundary means not having
begun it. -/
theorem LeftAt.eq_zero {pre post : List RxBuf} {p : ℕ} {part : List UInt8}
    (h : LeftAt post p part)
    (hstop : Blocks.StopsAtBlock ((pre ++ post).map (·.1.len)) ((pre.map (·.1.len)).sum + p)) :
    p = 0 := by
  rcases h with ⟨h0, _⟩ | ⟨b, t, hpost, hlt, _⟩
  · exact h0
  · rw [List.map_append] at hstop
    have hright := hstop.right
    rw [Nat.add_sub_cancel_left, hpost, List.map_cons] at hright
    rcases hright with h0 | ⟨hle, _⟩
    · exact h0
    · omega

section Unread

variable {n nw full : ℕ} {buf : ℕ → RxBuf} {avail base pend : ℕ} {bufs : List Buf}

/-- Beyond the first unread buffer nothing is read in part. -/
theorem FreeList.offset_eq_zero (h : FreeList n nw full buf avail base pend bufs) {k : ℕ}
    (hk : 0 < k) (hkle : pend + k ≤ bufs.length) : (buf ((pend + k) % n)).1.offset = 0 := by
  have hb := h.base_le
  have hl := h.lt
  rcases Nat.lt_or_ge (pend + k) bufs.length with hlt | hge
  · exact h.whole _ (by omega) hlt
  · exact (h.clean _ hge (by omega)).offset

/-- If the first unread buffer is whole, all are. -/
theorem FreeList.all_whole (h : FreeList n nw full buf avail base pend bufs)
    (h0 : (buf (pend % n)).1.offset = 0) :
    ∀ x ∈ unreadBufs n buf pend bufs.length, x.1.offset = 0 := by
  intro x hx
  obtain ⟨j, hj, rfl⟩ := List.mem_map.mp hx
  rw [List.mem_range] at hj
  rcases Nat.eq_zero_or_pos j with rfl | hpos
  · exact h0
  · exact h.offset_eq_zero hpos (by omega)

/-- The lengths of some unread buffers from the first on. -/
theorem FreeList.sum_pre (h : FreeList n nw full buf avail base pend bufs)
    {pre post : List RxBuf} (hsplit : unreadBufs n buf pend bufs.length = pre ++ post) :
    (pre.map (·.1.len)).sum + (if pre = [] then 0 else (buf (pend % n)).1.offset)
      = (((bufs.drop pend).take pre.length).map (·.bytes.length)).sum := by
  obtain ⟨hall, hwhole⟩ := h.unread
  rw [hsplit] at hall hwhole
  have hpre := List.forall₂_take pre.length hall
  rw [List.take_left] at hpre
  cases pre with
  | nil => simp
  | cons x pre =>
      have hx : x = buf (pend % n) := by
        have hlen := congrArg List.length hsplit
        have h0 := congrArg List.head? hsplit
        unfold unreadBufs at h0 hlen
        rw [List.length_map, List.length_range, List.length_append, List.length_cons] at hlen
        obtain ⟨m, hm⟩ : ∃ m, bufs.length - pend = m + 1 := ⟨bufs.length - pend - 1, by omega⟩
        rw [hm, List.range_succ_eq_map] at h0
        simpa using h0.symm
      cases hbs : (bufs.drop pend).take (x :: pre).length with
      | nil => rw [hbs] at hpre; cases hpre
      | cons b bs =>
          rw [hbs] at hpre
          have hsum := sum_len_add_offset hpre
            (fun y hy => hwhole y (List.mem_append_left _ hy))
          rw [if_neg (List.cons_ne_nil x pre), ← hx]
          exact hsum

/-- The unread buffers split where a read stops. -/
theorem FreeList.split (h : FreeList n nw full buf avail base pend bufs)
    {pre post : List RxBuf} (hsplit : unreadBufs n buf pend bufs.length = pre ++ post) :
    pend + pre.length ≤ bufs.length ∧
      List.Forall₂ (Holds nw) pre ((bufs.drop pend).take pre.length) ∧
      List.Forall₂ (Holds nw) post (bufs.drop (pend + pre.length)) ∧
      ∀ b t, post = b :: t →
        pend + pre.length < bufs.length ∧ b = buf ((pend + pre.length) % n) := by
  have hp := h.pend_le
  have hall := h.unread.1
  have hlen := congrArg List.length hsplit
  rw [hsplit] at hall
  unfold unreadBufs at hlen
  rw [List.length_map, List.length_range, List.length_append] at hlen
  refine ⟨by omega, ?_, ?_, fun b t hpt => ?_⟩
  · have := List.forall₂_take pre.length hall
    rwa [List.take_left] at this
  · have := List.forall₂_drop pre.length hall
    rwa [List.drop_left, List.drop_drop] at this
  · rw [hpt, List.length_cons] at hlen
    refine ⟨by omega, ?_⟩
    have hget := congrArg (fun l => l[pre.length]?) hsplit
    unfold unreadBufs at hget
    rw [hpt] at hget
    simp only [List.getElem?_map, List.getElem?_range (show pre.length < bufs.length - pend by omega),
      Option.map_some, List.getElem?_append_right (Nat.le_refl pre.length), Nat.sub_self,
      List.getElem?_cons_zero, Option.some.injEq] at hget
    exact hget.symm

/-- A buffer holds what is unread of it. -/
theorem bufBytes_eq {x : RxBuf} {b : Buf} (h : Holds nw x b) :
    bufBytes x = b.bytes.take (b.bytes.length - x.1.offset) := by
  have hlen := h.len
  have hle : x.1.len ≤ b.bytes.length := by omega
  conv_rhs => rw [← h.page]
  unfold bufBytes
  rw [length_pageBytes, show b.bytes.length - x.1.offset = x.1.len by omega,
    take_pageBytes _ _ hle]

/-- Buffers the first of which is read in part. -/
theorem map_bufBytes {xs : List RxBuf} {bs : List Buf} (h : List.Forall₂ (Holds nw) xs bs)
    (hwhole : ∀ x ∈ xs.tail, x.1.offset = 0) {o : ℕ} (ho : ∀ x ∈ xs.head?, x.1.offset = o) :
    xs.map bufBytes = leftBytes o bs := by
  have hrest : ∀ {ys : List RxBuf} {cs : List Buf}, List.Forall₂ (Holds nw) ys cs →
      (∀ y ∈ ys, y.1.offset = 0) → ys.map bufBytes = cs.map Buf.bytes := by
    intro ys cs hys h0
    induction hys with
    | nil => rfl
    | cons hy _ ih =>
        rw [List.map_cons, List.map_cons, bufBytes_eq hy, h0 _ List.mem_cons_self, Nat.sub_zero,
          List.take_length, ih (fun y hy => h0 y (List.mem_cons_of_mem _ hy))]
  cases h with
  | nil => rfl
  | cons hx ht =>
      rw [List.map_cons, bufBytes_eq hx, ho _ rfl, hrest ht hwhole]
      rfl

/-- **The bytes of the unread buffers.** -/
theorem FreeList.unread_bytes (h : FreeList n nw full buf avail base pend bufs) :
    (unreadBufs n buf pend bufs.length).map bufBytes
      = leftBytes (buf (pend % n)).1.offset (bufs.drop pend) := by
  obtain ⟨hall, hwhole⟩ := h.unread
  refine map_bufBytes hall hwhole (fun x hx => ?_)
  unfold unreadBufs at hx
  rw [List.head?_map] at hx
  obtain ⟨j, hj, rfl⟩ := Option.mem_map.mp hx
  obtain rfl : j = 0 := by
    cases hm : bufs.length - pend with
    | zero => rw [hm] at hj; cases hj
    | succ m => rw [hm, List.range_succ_eq_map] at hj; exact (Option.some.inj hj).symm
  rw [Nat.add_zero]

/-- Beyond the first buffer nothing is read in part. -/
theorem drop_leftBytes (o k : ℕ) (bs : List Buf) :
    (leftBytes o bs).drop k = leftBytes (if k = 0 then o else 0) (bs.drop k) := by
  cases bs with
  | nil => rw [List.drop_nil]; exact List.drop_nil
  | cons b bs =>
      cases k with
      | zero => rfl
      | succ k =>
          rw [if_neg (Nat.succ_ne_zero k), List.drop_succ_cons]
          show (bs.map Buf.bytes).drop k = _
          rw [← List.map_drop]
          cases bs.drop k with
          | nil => rfl
          | cons c cs =>
              rw [leftBytes, Nat.sub_zero, List.take_length]
              rfl

/-- Reading on in the first buffer. -/
theorem cutFirst_leftBytes (o p : ℕ) (bs : List Buf) :
    Blocks.cutFirst keepFront p (leftBytes o bs) = leftBytes (o + p) bs := by
  cases bs with
  | nil => rfl
  | cons b bs =>
      rw [leftBytes, leftBytes, Blocks.cutFirst]
      unfold keepFront
      rw [List.take_take, List.length_take]
      congr 2
      omega

/-- **What a read draws** from the unread buffers, and what it leaves of them. -/
theorem FreeList.draw_unread (h : FreeList n nw full buf avail base pend bufs)
    {pre post : List RxBuf} (hsplit : unreadBufs n buf pend bufs.length = pre ++ post) {p : ℕ}
    {part : List UInt8} (hleft : LeftAt post p part) {room room' : ℕ}
    (hsum : (pre.map (·.1.len)).sum + p + room' = room) (hend : post = [] ∨ room' = 0) :
    Blocks.draw keepFront room
        (Blocks.solid (leftBytes (buf (pend % n)).1.offset (bufs.drop pend)))
      = (pre.flatMap bufBytes ++ part, room', Blocks.solid (leftBytes
          ((if pre = [] then (buf (pend % n)).1.offset else 0) + p)
          (bufs.drop (pend + pre.length)))) := by
  have hmap := h.unread_bytes
  rw [hsplit, List.map_append] at hmap
  have hpost : post.map bufBytes = leftBytes (if pre = [] then (buf (pend % n)).1.offset else 0)
      (bufs.drop (pend + pre.length)) := by
    have hdrop := drop_leftBytes (buf (pend % n)).1.offset pre.length (bufs.drop pend)
    rw [← hmap, List.drop_left' (List.length_map _), List.drop_drop] at hdrop
    rw [hdrop]
    simp only [List.length_eq_zero_iff]
  have hpart : part = ((post.map bufBytes).headD []).take p := by
    rcases hleft with ⟨rfl, rfl⟩ | ⟨b, t, rfl, hlt, rfl⟩
    · rfl
    · exact (take_pageBytes _ _ hlt.le).symm
  have hdraw := @Blocks.draw_split _ keepFront ?_ ?_ room p room' (pre.map bufBytes)
    (post.map bufBytes) ?_ ?_ (hend.imp_left (fun h0 => by rw [h0]; rfl))
  · rw [← hmap, hdraw, hpart, hpost, cutFirst_leftBytes]
    rfl
  · intro c
    unfold keepFront
    rw [Nat.sub_zero, List.take_length]
  · intro m c hlt h0
    have hl := congrArg List.length h0
    unfold keepFront at hl
    rw [List.length_take, List.length_nil] at hl
    omega
  · rw [List.map_map, ← hsum]
    simp only [Function.comp_def, bufBytes, length_pageBytes]
  · rcases hleft with ⟨h0, -⟩ | ⟨b, t, rfl, hlt, -⟩
    · exact .inl h0
    · refine .inr ⟨bufBytes b, t.map bufBytes, rfl, ?_⟩
      unfold bufBytes
      rwa [length_pageBytes]

end Unread

section Stop

variable {q : Descq} {base pend : ℕ} {bufs : List Buf} {pre post : List RxBuf} {p : ℕ}
  {part : List UInt8}

/-- A read takes no more than what is unread. -/
theorem Receiving.taken_le (h : Receiving q base pend bufs)
    (hsplit : unreadBufs q.conf.rngsz q.bufAt pend bufs.length = pre ++ post)
    (hleft : LeftAt post p part) : (pre.map (·.1.len)).sum + p ≤ q.flq.pktDlen := by
  obtain ⟨-, -, hpost, -⟩ := h.fl.split hsplit
  obtain ⟨-, -, hple⟩ := hleft.part_eq hpost
  rw [h.dlen_eq, hsplit, List.map_append, List.sum_append]
  omega

/-- The bytes unread fit their 32-bit counter. -/
theorem Receiving.pktDlen_lt (h : Receiving q base pend bufs) : q.flq.pktDlen < 2 ^ 32 := by
  have hd := h.dlen
  have hlt := h.dlen_lt
  omega

/-- **The counter after a read** is again what is left, with the buffer left partway. -/
theorem Receiving.dlen_after (h : Receiving q base pend bufs)
    (hsplit : unreadBufs q.conf.rngsz q.bufAt pend bufs.length = pre ++ post)
    (hleft : LeftAt post p part) :
    u32Sub q.flq.pktDlen ((pre.map (·.1.len)).sum + p)
        + ((if pre = [] then q.headOffset pend else 0) + p)
      = ((bufs.drop (pend + pre.length)).map (·.bytes.length)).sum := by
  have hsum := h.fl.sum_pre hsplit
  have hle := h.taken_le hsplit hleft
  have hd := h.dlen
  have htd := List.take_append_drop pre.length (bufs.drop pend)
  rw [List.drop_drop] at htd
  rw [← htd, List.map_append, List.sum_append] at hd
  have hoff0 : (q.bufAt (pend % q.conf.rngsz)).1.offset = q.headOffset pend := rfl
  have hoff1 : (q.flq.sdesc (pend % q.conf.rngsz)).offset = q.headOffset pend := rfl
  rw [hoff0] at hsum
  rw [hoff1] at hd
  rw [u32Sub_of_le h.pktDlen_lt hle]
  split_ifs at hsum ⊢ <;> omega

/-- **What a read copies** when it finds the first buffer whole. -/
theorem Receiving.bytes_before (h : Receiving q base pend bufs)
    (hsplit : unreadBufs q.conf.rngsz q.bufAt pend bufs.length = pre ++ post)
    (hleft : LeftAt post p part) (h0 : q.headOffset pend = 0) :
    pre.flatMap bufBytes ++ part = ((bufs.drop pend).take pre.length).flatMap Buf.bytes ++
      ((bufs.drop (pend + pre.length)).flatMap Buf.bytes).take p := by
  obtain ⟨-, hpre, hpost, -⟩ := h.fl.split hsplit
  have hall := h.fl.all_whole h0
  rw [hsplit] at hall
  have hbytes := (sum_len_of_whole hpre (fun y hy => hall y (List.mem_append_left _ hy))).2
  rw [hbytes, ← (hleft.part_eq hpost).1]

/-- Where the room ends with a buffer, the read leaves none partway. -/
theorem Receiving.stop_whole (h : Receiving q base pend bufs)
    (hsplit : unreadBufs q.conf.rngsz q.bufAt pend bufs.length = pre ++ post)
    (hleft : LeftAt post p part) (h0 : q.headOffset pend = 0)
    (hstop : Blocks.StopsAtBlock ((bufs.drop pend).map (·.bytes.length))
      ((pre.map (·.1.len)).sum + p)) : p = 0 := by
  have hall := h.fl.all_whole h0
  rw [← map_len_of_whole h.fl.unread.1 hall, hsplit] at hstop
  exact hleft.eq_zero hstop

/-- **The loop of a read** in the receive state. -/
theorem Receiving.readLoop (h : Receiving q base pend bufs) {r : Rd} (hd : r.d = q)
    (hpidx : r.pidx = q.flq.pidxPend) (hfoff : r.foff = 0) :
    ∃ pre post p part log tsg tsgoff j,
      unreadBufs q.conf.rngsz q.bufAt pend bufs.length = pre ++ post ∧ LeftAt post p part ∧
      Qdma.readLoop (bufs.length - pend) r = r.readTo pre p log tsg tsgoff j ∧
      copyBytes log = pre.flatMap bufBytes ++ part ∧
      ∀ sgl, Cursor sgl r.tsg r.tsgoff r.j → Cursor sgl tsg tsgoff j ∧
        (post = [] ∨ tsg = []) ∧
        (pre.map (·.1.len)).sum + p + sglRoom tsg tsgoff = sglRoom r.tsg r.tsgoff := by
  have hn := h.sizes.pos
  have hmax := h.sizes.le_max
  have hidx : r.pidx = pend % q.conf.rngsz := hpidx.trans h.pidxPend
  set sl := unreadBufs q.conf.rngsz q.bufAt pend bufs.length with hsl
  have hlen : sl.length = bufs.length - pend := by simp [hsl, unreadBufs]
  have hspec := readLoop_spec sl r (by rw [hd]; omega)
    (by rw [hd, hidx]; exact Nat.mod_lt _ hn) hfoff (fun i hi => by
      rw [hd, hidx, adv_mod]
      simp [hsl, unreadBufs])
  rwa [hlen] at hspec

end Stop

/-- **One read** keeps the receive state, and copies what is unread in order. -/
theorem Receiving.read {q : Descq} {base pend : ℕ} {bufs : List Buf}
    (h : Receiving q base pend bufs) (hpidx : q.pidx = bufs.length % q.conf.rngsz)
    (cb : SgtReqCb) (updatePidx refill : Bool) (hbase : refill = true → base = pend) :
    ∃ k log, ReadDone q cb updatePidx refill base pend bufs k log
      (descqStC2hRead q cb updatePidx refill).1 (descqStC2hRead q cb updatePidx refill).2.1 := by
  have hmax := h.sizes.le_max
  have hb := h.fl.base_le
  have hp := h.fl.pend_le
  have hl := h.fl.lt
  have hcnt : ringIdxDelta q.pidx q.flq.pidxPend q.flq.size = bufs.length - pend := by
    rw [hpidx, h.pidxPend, h.sizes.size, ringIdxDelta_mod (by omega) hp (by omega)]
  unfold descqStC2hRead
  simp only [hcnt]
  split_ifs with h0 h1
  · exact ⟨0, [], .idle h cb updatePidx refill hbase (fun _ => .inl (by omega))⟩
  · refine ⟨0, [], .idle h cb updatePidx refill hbase (fun _ => .inr ?_)⟩
    unfold cbRoom
    rw [h1.2]
    exact Nat.zero_sub _
  -- the loop reads `pre` to its end and stops `p` bytes into the buffer behind it
  obtain ⟨pre, post, p, part, log, tsg, tsgoff, j, hsplit, hleft, heq, hlog, hcur⟩ :=
    h.readLoop (r := { d := q, pidx := q.flq.pidxPend, tsg := cb.req.sgl.drop cb.sgIdx,
                       tsgoff := cb.sgOffset, j := cb.sgIdx }) rfl rfl rfl
  rw [heq]
  obtain ⟨hkle, hpre, hpost, hnext⟩ := h.fl.split hsplit
  obtain ⟨-, hplen, -⟩ := hleft.part_eq hpost
  have hle := h.taken_le hsplit hleft
  set k := pre.length with hk
  set r := Rd.readTo { d := q, pidx := q.flq.pidxPend, tsg := cb.req.sgl.drop cb.sgIdx,
                       tsgoff := cb.sgOffset, j := cb.sgIdx } pre p log tsg tsgoff j with hr
  have hri : r.i = k := Nat.zero_add k
  have hrp : r.pidx = (pend + k) % q.conf.rngsz := by
    show adv q.conf.rngsz q.flq.pidxPend k = _
    rw [h.pidxPend, adv_mod]
  have hrc : r.copied = (pre.map (·.1.len)).sum + p := by
    show 0 + (pre.map (·.1.len)).sum + p = _
    rw [Nat.zero_add]
  -- what follows the loop moves the free list on by the buffers read to their end
  obtain ⟨s, x, a, regs, hend, hfl, hpage, hoff, hregs⟩ :=
    readEnd_spec updatePidx refill (h.sizes.congr rfl rfl rfl rfl : RxSizes r.d)
      (by rw [hri]; exact h.fl.pass hkle) h.pidxPend (by rw [hri]; exact hrp) hb hbase (by
        rcases hleft with ⟨h0, _⟩ | ⟨b, t, hpt, hlt, _⟩
        · exact .inl h0
        · obtain ⟨h1, h2⟩ := hnext b t hpt
          rw [hri]
          rw [h2] at hlt
          exact .inr ⟨h1, hlt⟩)
  have hconf : r.d.conf = q.conf := rfl
  rw [hri, hconf] at hend hoff hregs
  rw [hri] at hfl
  rw [hend]
  have hhead : (s ((pend + k) % q.conf.rngsz)).offset
      = (if pre = [] then q.headOffset pend else 0) + p := by
    rw [hoff]
    congr 1
    split_ifs with hnil
    · have hk0 : k = 0 := by rw [hk, hnil]; rfl
      rw [hk0, Nat.add_zero]
      rfl
    · exact h.fl.offset_eq_zero (List.length_pos_iff.mpr hnil) hkle
  have hcopied : (copyBytes log).length = (pre.map (·.1.len)).sum + p := by
    rw [hlog, List.length_append, hplen, List.length_flatMap]
    simp [bufBytes]
  -- the cursor of the request is where the loop left it
  have hcb : CursorOk cb →
      cbRoom { cb with sgIdx := r.j, sgOffset := r.tsgoff, left := u32Sub cb.left r.copied }
        = sglRoom tsg tsgoff := by
    intro hc
    show sglRoom (cb.req.sgl.drop j) tsgoff = _
    rw [← (hcur cb.req.sgl hc).1.tsg_eq]
  have hnil : tsg = [] → sglRoom tsg tsgoff = 0 := by
    intro hnil
    rw [hnil]
    exact Nat.zero_sub _
  refine ⟨k, log, ⟨?_, ?_, rfl, ?_, ?_, ?_, ⟨rfl, rfl⟩, fun _ => ?_, ?_, ?_, ?_, ?_⟩⟩
  · refine Receiving.mk (q := r.d.afterRead s x a ((pend + k) % q.conf.rngsz)
      (u32Sub r.d.flq.pktDlen r.copied) r.d.cidxWrbPend [] regs)
      (h.sizes.congr rfl rfl rfl rfl) hfl rfl ?_ ?_ h.small h.warned
    · show u32Sub q.flq.pktDlen r.copied + (s ((pend + k) % q.conf.rngsz)).offset = _
      rw [hrc, hhead]
      exact h.dlen_after hsplit hleft
    · show pre.foldl passBuf q.cidxWrbPend = _
      rw [h.last, foldl_passBuf hpre, ← lastSeq_append, List.take_add]
      rfl
  · exact ⟨rfl, rfl, rfl, rfl, rfl, rfl, rfl, rfl, rfl, hpage⟩
  · show (q.copied ++ log) ++ [] = _
    rw [List.append_nil]
  · show u32Sub q.flq.pktDlen r.copied + _ = _
    rw [hrc, hcopied, u32Sub_of_le h.pktDlen_lt hle, Nat.sub_add_cancel hle]
  · exact .inr hregs
  · rw [hcopied, ← hrc]
  · intro h0
    show copyBytes log = _ ++ (List.flatMap Buf.bytes _).take (s ((pend + k) % q.conf.rngsz)).offset
    rw [hhead, h0, ite_self, Nat.zero_add, hlog]
    exact h.bytes_before hsplit hleft h0
  · intro hc
    obtain ⟨hcur1, hend1, hroom1⟩ := hcur cb.req.sgl hc
    refine ⟨?_, ?_, ?_⟩
    · show Cursor cb.req.sgl (cb.req.sgl.drop j) tsgoff j
      rw [← hcur1.tsg_eq]
      exact hcur1
    · rw [hcb hc, hcopied]
      exact hroom1
    · rw [hcb hc]
      refine hend1.imp (fun hpost => ?_) hnil
      have hlen := congrArg List.length hsplit
      unfold unreadBufs at hlen
      rw [hpost, List.append_nil, List.length_map, List.length_range] at hlen
      omega
  · intro hc
    obtain ⟨-, hend1, hroom1⟩ := hcur cb.req.sgl hc
    have hdraw := h.fl.draw_unread hsplit hleft
      (show _ + sglRoom tsg tsgoff = cbRoom cb from hroom1) (hend1.imp_right hnil)
    rw [hcb hc, hlog]
    refine hdraw.trans ?_
    unfold Descq.unread Descq.headOffset
    show _ = (_, _, Blocks.solid (leftBytes (s ((pend + k) % q.conf.rngsz)).offset _))
    rw [hhead]
    rfl
  · intro h0 hc hstop
    show (s ((pend + k) % q.conf.rngsz)).offset = 0
    rw [hhead, h0, ite_self, Nat.zero_add]
    obtain ⟨-, hend1, hroom1⟩ := hcur cb.req.sgl hc
    rcases hend1 with hpost | htsg
    · -- no buffer is left that it could stop in
      rcases hleft with ⟨hp0, _⟩ | ⟨b, t, hpt, _, _⟩
      · exact hp0
      · rw [hpost] at hpt
        cases hpt
    · have hroom : (pre.map (·.1.len)).sum + p + sglRoom tsg tsgoff = cbRoom cb := hroom1
      rw [hnil htsg, Nat.add_zero] at hroom
      rw [← hroom] at hstop
      exact h.stop_whole hsplit hleft h0 hstop

/-! ## Serving the pending requests -/

/-- The queue with other lists of requests. -/
def Descq.withReqs (d : Descq) (workList pendList : List SgtReqCb) (finished : List Done) :
    Descq :=
  { d with workList := workList, pendList := pendList, finished := finished }

theorem SameDev.withReqs (q : Descq) (w p : List SgtReqCb) (f : List Done) :
    SameDev q (q.withReqs w p f) :=
  ⟨rfl, rfl, rfl, rfl, rfl, rfl, rfl, rfl, rfl, fun _ => rfl⟩

theorem Receiving.withReqs {q : Descq} {base pend : ℕ} {bufs : List Buf}
    (h : Receiving q base pend bufs) (w p : List SgtReqCb) (f : List Done) :
    Receiving (q.withReqs w p f) base pend bufs :=
  h.congr rfl rfl rfl rfl rfl

@[simp] theorem withReqs_withReqs (q : Descq) (w w' p p' : List SgtReqCb) (f f' : List Done) :
    (q.withReqs w p f).withReqs w' p' f' = q.withReqs w' p' f' := rfl

theorem setCb_eq_withReqs (q : Descq) (cb : SgtReqCb) :
    q.setCb cb = q.withReqs (updCb cb q.workList) (updCb cb q.pendList) q.finished := rfl

theorem done_eq_withReqs (q : Descq) (cb : SgtReqCb) (rv : ℤ) :
    ∃ w p f, qdmaSgtReqDone q cb rv = q.withReqs w p f ∧ ∀ c ∈ p, c ∈ q.pendList :=
  ⟨_, _, _, rfl, fun _ hc => (List.mem_filter.mp hc).1⟩

theorem mem_updCb {cb c : SgtReqCb} {l : List SgtReqCb} (h : c ∈ updCb cb l) :
    c = cb ∨ c ∈ l := by
  obtain ⟨b, hb, rfl⟩ := List.mem_map.mp h
  split_ifs
  · exact .inl rfl
  · exact .inr hb

theorem updCb_self {cb : SgtReqCb} {l : List SgtReqCb} (h : cb.id ∉ l.map SgtReqCb.id) :
    updCb cb l = l := by
  unfold updCb
  conv_rhs => rw [← List.map_id l]
  apply List.map_congr_left
  intro c hc
  have hne : c.id ≠ cb.id := fun heq => h (heq ▸ List.mem_map_of_mem hc)
  rw [if_neg hne]
  rfl

/-- A read that has room in its list does not fail. -/
theorem read_rv (q : Descq) (cb : SgtReqCb) (updatePidx refill : Bool) (h : cbRoom cb ≠ 0) :
    ¬ (descqStC2hRead q cb updatePidx refill).2.2 < 0 := by
  unfold descqStC2hRead
  simp only
  split_ifs with _ h1
  · exact lt_irrefl 0
  · exact absurd (by unfold cbRoom; rw [h1.2]; exact Nat.zero_sub _) h
  · exact not_lt.mpr (Int.natCast_nonneg _)

/-- What `packetsProcDflt` does with one request: a read, and the bookkeeping of the
lists. -/
theorem packetsProcDflt_cons (cb : SgtReqCb) (cbs : List SgtReqCb) (q : Descq)
    (h0 : cb.left ≠ 0) : ∃ w p f,
      (∀ c ∈ p, c = (descqStC2hRead q cb false false).2.1 ∨
        c ∈ (descqStC2hRead q cb false false).1.pendList) ∧
      (cbRoom cb ≠ 0 → (descqStC2hRead q cb false false).1.pendList = cb :: cbs →
        ((cb :: cbs).map SgtReqCb.id).Nodup → (descqStC2hRead q cb false false).2.1.id = cb.id →
        p = if (descqStC2hRead q cb false false).2.1.left = 0 then cbs
          else (descqStC2hRead q cb false false).2.1 :: cbs) ∧
      (packetsProcDflt (cb :: cbs) q = (descqStC2hRead q cb false false).1.withReqs w p f ∧
          (descqStC2hRead q cb false false).2.1.left ≠ 0 ∨
        (descqStC2hRead q cb false false).2.1.left = 0 ∧
        packetsProcDflt (cb :: cbs) q =
          packetsProcDflt cbs ((descqStC2hRead q cb false false).1.withReqs w p f)) := by
  have hrv := read_rv q cb false false
  set r := descqStC2hRead q cb false false with hr
  set d1 := if r.2.2 < 0 then qdmaSgtReqDone (r.1.setCb r.2.1) r.2.1 r.2.2
    else r.1.setCb r.2.1 with hd1
  have hstep : packetsProcDflt (cb :: cbs) q =
      if r.2.1.left = 0 then packetsProcDflt cbs (qdmaSgtReqDone d1 r.2.1 0) else d1 := by
    rw [packetsProcDflt, if_neg h0]
  obtain ⟨w1, p1, f1, h1, hsub1⟩ := done_eq_withReqs (r.1.setCb r.2.1) r.2.1 r.2.2
  -- an error finishes the request, and otherwise it stays with its new counts
  have hmid : ∃ w p f, d1 = r.1.withReqs w p f ∧ (∀ c ∈ p, c = r.2.1 ∨ c ∈ r.1.pendList) ∧
      (cbRoom cb ≠ 0 → p = updCb r.2.1 r.1.pendList) := by
    rw [hd1, h1, setCb_eq_withReqs, withReqs_withReqs]
    split_ifs with hneg
    · exact ⟨_, _, _, rfl, fun c hc => mem_updCb (hsub1 c hc), fun hroom => absurd hneg (hrv hroom)⟩
    · exact ⟨_, _, _, rfl, fun c hc => mem_updCb hc, fun _ => rfl⟩
  obtain ⟨w3, p3, f3, h3, hsub3, hlist3⟩ := hmid
  have hupd : cbRoom cb ≠ 0 → r.1.pendList = cb :: cbs → ((cb :: cbs).map SgtReqCb.id).Nodup →
      r.2.1.id = cb.id → p3 = r.2.1 :: cbs ∧ r.2.1.id ∉ cbs.map SgtReqCb.id := by
    intro hroom hpend hnd hid
    have hnot : r.2.1.id ∉ cbs.map SgtReqCb.id := hid ▸ (List.nodup_cons.mp hnd).1
    refine ⟨?_, hnot⟩
    rw [hlist3 hroom, hpend]
    unfold updCb
    rw [List.map_cons, if_pos hid.symm]
    exact congrArg (r.2.1 :: ·) (updCb_self hnot)
  have hdone : qdmaSgtReqDone d1 r.2.1 0 = r.1.withReqs (w3.filter (fun c => c.id ≠ r.2.1.id))
      (p3.filter (fun c => c.id ≠ r.2.1.id)) (qdmaSgtReqDone d1 r.2.1 0).finished := by
    rw [h3]
    rfl
  rw [hstep]
  by_cases hleft : r.2.1.left = 0
  · rw [if_pos hleft, if_pos hleft, hdone]
    refine ⟨_, _, _, fun c hc => hsub3 c (List.mem_filter.mp hc).1, fun hroom hpend hnd hid => ?_,
      .inr ⟨hleft, rfl⟩⟩
    obtain ⟨hp3, hnot⟩ := hupd hroom hpend hnd hid
    rw [hp3, List.filter_cons_of_neg (by simp)]
    refine List.filter_eq_self.mpr (fun c hc => ?_)
    have hne : c.id ≠ r.2.1.id := fun heq => hnot (heq ▸ List.mem_map_of_mem hc)
    simpa using hne
  · rw [if_neg hleft, if_neg hleft]
    exact ⟨w3, p3, f3, hsub3, fun hroom hpend hnd hid => (hupd hroom hpend hnd hid).1,
      .inl ⟨h3, hleft⟩⟩

/-- A control block between two reads. -/
structure CbOk (cb : SgtReqCb) : Prop where
  cursor : CursorOk cb
  left : cb.left < 2 ^ 32

/-- The scatter-gather list of a request has room for just what it is still to get. -/
structure CbFits (cb : SgtReqCb) : Prop where
  cursor : CursorOk cb
  left_eq : cb.left = cbRoom cb
  lt : cb.left < 2 ^ 32

/-- A request that waits for something. -/
structure CbWaits (cb : SgtReqCb) : Prop extends CbFits cb where
  pos : 0 < cb.left

/-- Serving `cbs` one after the other from buffers of the lengths `lens`, of which `a`
bytes are taken: every request begins with a new buffer. -/
def ReadsWhole (lens : List ℕ) : ℕ → List SgtReqCb → Prop
  | _, [] => True
  | a, cb :: cbs => Blocks.StopsAtBlock lens a ∧
      (cb.left = min (cbRoom cb) (lens.sum - a) → ReadsWhole lens (a + cb.left) cbs)

instance instDecidableReadsWhole (lens : List ℕ) :
    (a : ℕ) → (cbs : List SgtReqCb) → Decidable (ReadsWhole lens a cbs)
  | _, [] => isTrue trivial
  | a, cb :: cbs =>
      have := instDecidableReadsWhole lens (a + cb.left) cbs
      inferInstanceAs (Decidable (Blocks.StopsAtBlock lens a ∧
        (cb.left = min (cbRoom cb) (lens.sum - a) → ReadsWhole lens (a + cb.left) cbs)))

/-- Buffers already taken can be left out. -/
theorem ReadsWhole.right {xs ys : List ℕ} {a : ℕ} {cbs : List SgtReqCb}
    (h : ReadsWhole (xs ++ ys) (xs.sum + a) cbs) : ReadsWhole ys a cbs := by
  induction cbs generalizing a with
  | nil => trivial
  | cons cb cbs ih =>
      obtain ⟨hstop, hnext⟩ := h
      rw [List.sum_append, Nat.add_sub_add_left, Nat.add_assoc] at hnext
      have hright := hstop.right
      rw [Nat.add_sub_cancel_left] at hright
      exact ⟨hright, fun hleft => ih (hnext hleft)⟩

section ReadDone

variable {q q' : Descq} {cb cb' : SgtReqCb} {upd refill : Bool} {base pend k : ℕ}
  {bufs : List Buf} {log : List Copy}

/-- A read keeps its control block in order. -/
theorem ReadDone.cbOk (h : ReadDone q cb upd refill base pend bufs k log q' cb') (hok : CbOk cb) :
    CbOk cb' := by
  refine ⟨(h.cursor hok.cursor).1, ?_⟩
  rw [h.left hok.left]
  exact Nat.mod_lt _ (Nat.two_pow_pos 32)

/-- A read leaves room for just what is still to come. -/
theorem ReadDone.left_eq (h : ReadDone q cb upd refill base pend bufs k log q' cb')
    (hw : CbFits cb) : cb'.left = cbRoom cb' := by
  have hlen := (h.cursor hw.cursor).2.1
  have heq := hw.left_eq
  rw [h.left hw.lt, u32Sub_of_le hw.lt (by omega)]
  omega

/-- The request waits on unless it has got all. -/
theorem ReadDone.waits (h : ReadDone q cb upd refill base pend bufs k log q' cb')
    (hw : CbFits cb) (hleft : cb'.left ≠ 0) : CbWaits cb' := by
  refine ⟨⟨(h.cursor hw.cursor).1, h.left_eq hw, ?_⟩, Nat.pos_of_ne_zero hleft⟩
  rw [h.left hw.lt]
  exact Nat.mod_lt _ (Nat.two_pow_pos 32)

/-- A read that begins with a new buffer copies the beginning of what is unread. -/
theorem ReadDone.isPrefix (h : ReadDone q cb upd refill base pend bufs k log q' cb')
    (h0 : q.headOffset pend = 0) : copyBytes log <+: (bufs.drop pend).flatMap Buf.bytes := by
  conv_rhs => rw [← List.take_append_drop k (bufs.drop pend), List.flatMap_append, List.drop_drop]
  rw [h.bytes h0, List.prefix_append_right_inj]
  exact List.take_prefix _ _

/-- It takes as much as there is and as the request has room for. -/
theorem ReadDone.taken (h : ReadDone q cb upd refill base pend bufs k log q' cb')
    (h0 : q.headOffset pend = 0) (hc : CursorOk cb) :
    (copyBytes log).length = min (cbRoom cb) ((bufs.drop pend).map (·.bytes.length)).sum := by
  have hle := (h.isPrefix h0).length_le
  rw [List.length_flatMap] at hle
  obtain ⟨_, hroom, hend | hend⟩ := h.cursor hc
  · have hall := h.bytes h0
    rw [hend, List.drop_length, List.flatMap_nil, List.take_nil, List.append_nil,
      List.take_of_length_le (by rw [List.length_drop]; omega)] at hall
    have hlen := congrArg List.length hall
    rw [List.length_flatMap] at hlen
    omega
  · omega

/-- Where it ends with a whole buffer the rest is left to the next one. -/
theorem ReadDone.rest (h : ReadDone q cb upd refill base pend bufs k log q' cb')
    (h0 : q.headOffset pend = 0) (h1 : q'.headOffset (pend + k) = 0) :
    copyBytes log = ((bufs.drop pend).take k).flatMap Buf.bytes ∧
      (copyBytes log).length = (((bufs.drop pend).take k).map (·.bytes.length)).sum := by
  have hlog := h.bytes h0
  rw [h1, List.take_zero, List.append_nil] at hlog
  exact ⟨hlog, by rw [hlog, List.length_flatMap]⟩

end ReadDone

/-- What serving the waiting requests `cbs` did: they are served in order, and one of them
waits on only when all buffers are read. -/
structure Drawn (q : Descq) (cbs : List SgtReqCb) (pend : ℕ) (bufs : List Buf) (k : ℕ)
    (log : List Copy) (q' : Descq) : Prop where
  done : q'.pendList = [] ∨ pend + k = bufs.length
  waits : ∀ cb ∈ q'.pendList, CbWaits cb
  ids : q'.pendList.map SgtReqCb.id <:+ cbs.map SgtReqCb.id
  drawn : Blocks.drawAll keepFront (cbs.map cbRoom) (q.unread pend bufs)
    = (copyBytes log, q'.pendList.map cbRoom, q'.unread (pend + k) bufs)

/-- What serving the requests `cbs` did: `k` buffers are read to their end, `log` is what
was copied. -/
structure Served (q : Descq) (cbs : List SgtReqCb) (base pend : ℕ) (bufs : List Buf) (k : ℕ)
    (log : List Copy) (q' : Descq) : Prop where
  rx : Receiving q' base (pend + k) bufs
  same : SameDev q q'
  regs : q'.regs = q.regs
  copied : q'.copied = q.copied ++ log
  dlen : q'.flq.pktDlen + (copyBytes log).length = q.flq.pktDlen
  nil : cbs = [] → log = []
  bytes : (∀ cb ∈ cbs, CbOk cb) → q.headOffset pend = 0 →
    ReadsWhole ((bufs.drop pend).map (·.bytes.length)) 0 cbs →
      copyBytes log <+: (bufs.drop pend).flatMap Buf.bytes
  pendOk : (∀ cb ∈ cbs, CbOk cb) → (∀ cb ∈ q.pendList, CbOk cb) → ∀ cb ∈ q'.pendList, CbOk cb
  waiting : (∀ cb ∈ cbs, CbWaits cb) → q.pendList = cbs → (cbs.map SgtReqCb.id).Nodup →
    Drawn q cbs pend bufs k log q'

/-- Serving on after a request that is filled. -/
theorem ReadDone.servedBytes {q q1 q' : Descq} {cb cb' : SgtReqCb} {base pend k k' : ℕ}
    {bufs : List Buf} {log log' : List Copy} {cbs : List SgtReqCb}
    (hread : ReadDone q cb false false base pend bufs k log q1 cb')
    (h : Receiving q base pend bufs) {q2 : Descq}
    (hs : Served q2 cbs base (pend + k) bufs k' log' q')
    (hhead2 : q2.headOffset (pend + k) = q1.headOffset (pend + k))
    (hleft : cb'.left = 0) (hok : ∀ c ∈ cb :: cbs, CbOk c) (hhead : q.headOffset pend = 0)
    (hwhole : ReadsWhole ((bufs.drop pend).map (·.bytes.length)) 0 (cb :: cbs)) :
    copyBytes (log ++ log') <+: (bufs.drop pend).flatMap Buf.bytes := by
  have hcb := hok cb List.mem_cons_self
  have htaken := hread.taken hhead hcb.cursor
  have hlt := h.dlen_lt
  have hfull : cb.left = (copyBytes log).length := by
    have hl := hread.left hcb.left
    rw [hleft] at hl
    unfold u32Sub at hl
    have := hcb.left
    omega
  obtain ⟨_, hnext⟩ := hwhole
  rw [Nat.sub_zero, Nat.zero_add] at hnext
  have hrest := hnext (hfull.trans htaken)
  cases cbs with
  | nil =>
      rw [hs.nil rfl, List.append_nil]
      exact hread.isPrefix hhead
  | cons c cbs =>
      -- the next request begins with a new buffer
      have hstop : Blocks.StopsAtBlock ((bufs.drop pend).map (·.bytes.length)) (cbRoom cb) := by
        have hstop := hrest.1
        rw [hfull, htaken] at hstop
        rcases Nat.le_total (cbRoom cb) ((bufs.drop pend).map (·.bytes.length)).sum with hle | hle
        · rwa [Nat.min_eq_left hle] at hstop
        · exact .of_sum_le hle
      have h1 := hread.whole hhead hcb.cursor hstop
      obtain ⟨hlog, hlen⟩ := hread.rest hhead h1
      have hsplit : (bufs.drop pend).map (·.bytes.length)
          = ((bufs.drop pend).take k).map (·.bytes.length)
            ++ (bufs.drop (pend + k)).map (·.bytes.length) := by
        rw [← List.map_append, ← List.drop_drop, List.take_append_drop]
      rw [hsplit, hfull, hlen, ← Nat.add_zero (List.sum _)] at hrest
      have := hs.bytes (fun c' hc' => hok c' (List.mem_cons_of_mem _ hc'))
        (hhead2.trans h1) hrest.right
      rw [copyBytes_append, hlog]
      conv_rhs =>
        rw [← List.take_append_drop k (bufs.drop pend), List.flatMap_append, List.drop_drop]
      rwa [List.prefix_append_right_inj]

/-- The request that waits on is the last one served. -/
theorem ReadDone.drawnLast {q q1 : Descq} {cb cb' : SgtReqCb} {cbs p w : List SgtReqCb}
    {f : List Done} {base pend k : ℕ} {bufs : List Buf} {log : List Copy}
    (h : ReadDone q cb false false base pend bufs k log q1 cb') (hw : ∀ c ∈ cb :: cbs, CbWaits c)
    (hleft : cb'.left ≠ 0) (hp : p = cb' :: cbs) :
    Drawn q (cb :: cbs) pend bufs k log (q1.withReqs w p f) := by
  have hwcb := hw cb List.mem_cons_self
  have hroom := h.left_eq hwcb.toCbFits
  subst hp
  refine ⟨.inr ((h.cursor hwcb.cursor).2.2.resolve_right (by omega)), fun c hc => ?_, ?_, ?_⟩
  · rcases List.mem_cons.mp hc with rfl | hc
    · exact h.waits hwcb.toCbFits hleft
    · exact hw c (List.mem_cons_of_mem _ hc)
  · show (cb'.id :: cbs.map SgtReqCb.id) <:+ cb.id :: cbs.map SgtReqCb.id
    rw [h.cb_eq.1]
  · rw [List.map_cons, Blocks.drawAll, h.drawn hwcb.cursor]
    simp only
    rw [if_neg (by omega)]
    rfl

/-- A request that has got all makes way for the next one. -/
theorem ReadDone.drawnNext {q q1 q' : Descq} {cb cb' : SgtReqCb} {cbs p w : List SgtReqCb}
    {f : List Done} {base pend k k' : ℕ} {bufs : List Buf} {log log' : List Copy}
    (h : ReadDone q cb false false base pend bufs k log q1 cb') (hw : ∀ c ∈ cb :: cbs, CbWaits c)
    (hleft : cb'.left = 0) (hnext : Drawn (q1.withReqs w p f) cbs (pend + k) bufs k' log' q') :
    Drawn q (cb :: cbs) pend bufs (k + k') (log ++ log') q' := by
  have hwcb := hw cb List.mem_cons_self
  have hroom := h.left_eq hwcb.toCbFits
  refine ⟨?_, hnext.waits, hnext.ids.trans (List.suffix_cons _ _), ?_⟩
  · rw [← Nat.add_assoc]
    exact hnext.done
  · have hdraw : Blocks.drawAll keepFront (cbs.map cbRoom) (q1.unread (pend + k) bufs) = _ :=
      hnext.drawn
    rw [List.map_cons, Blocks.drawAll, h.drawn hwcb.cursor]
    simp only
    rw [if_pos (by omega), hdraw, copyBytes_append, Nat.add_assoc]

/-- **Serving the pending requests** keeps the receive state. -/
theorem Receiving.procDflt {q : Descq} {base pend : ℕ} {bufs : List Buf}
    (h : Receiving q base pend bufs) (hpidx : q.pidx = bufs.length % q.conf.rngsz)
    (cbs : List SgtReqCb) :
    ∃ k log, Served q cbs base pend bufs k log (packetsProcDflt cbs q) := by
  induction cbs generalizing q pend with
  | nil =>
      refine ⟨0, [], h, SameDev.refl q, rfl, (List.append_nil _).symm, rfl, fun _ => rfl,
        fun _ _ _ => List.nil_prefix, fun _ hok => hok, fun hw hpend _ => ?_⟩
      exact ⟨.inl hpend, fun c hc => hw c (hpend ▸ hc), by rw [packetsProcDflt, hpend],
        by rw [packetsProcDflt, hpend]; rfl⟩
  | cons cb cbs ih =>
      by_cases h0 : cb.left = 0
      · -- a request that has all it asked for only leaves the lists
        obtain ⟨w, p, f, heq, hsub⟩ := done_eq_withReqs q cb 0
        rw [packetsProcDflt, if_pos h0, heq]
        exact ⟨0, [], h.withReqs w p f, .withReqs q w p f, rfl, (List.append_nil _).symm, rfl,
          nofun, fun _ _ _ => List.nil_prefix, fun _ hok c hc => hok c (hsub c hc),
          fun hw _ _ => absurd h0 (Nat.ne_of_gt (hw cb List.mem_cons_self).pos)⟩
      · obtain ⟨k, log, hread⟩ := h.read hpidx cb false false nofun
        have hregs : (descqStC2hRead q cb false false).1.regs = q.regs := by
          rcases hread.regs with ⟨h1, _⟩ | h1
          · exact h1
          · exact h1
        obtain ⟨w, p, f, hsub, hlist, ⟨heq, hleft⟩ | ⟨hleft, heq⟩⟩ := packetsProcDflt_cons cb cbs q h0
        · rw [heq]
          -- the packets are used up before the request is served
          refine ⟨k, log, hread.rx.withReqs w p f, hread.same.trans (.withReqs _ w p f), hregs,
            hread.copied, hread.dlen, nofun, fun _ hhead _ => hread.isPrefix hhead,
            fun hok hpl c hc => ?_, fun hw hpend hnd => ?_⟩
          · rcases hsub c hc with rfl | hc
            · exact hread.cbOk (hok cb List.mem_cons_self)
            · exact hpl c (by rwa [hread.pendList] at hc)
          · have hwcb := hw cb List.mem_cons_self
            have hp := hlist (by rw [← hwcb.left_eq]; exact h0) (hread.pendList.trans hpend) hnd
              hread.cb_eq.1
            rw [if_neg hleft] at hp
            exact hread.drawnLast hw hleft hp
        · rw [heq]
          have hsame := hread.same.trans (.withReqs _ w p f)
          obtain ⟨k', log', hs⟩ := ih (hread.rx.withReqs w p f)
            (by rw [hsame.conf, hsame.pidx]; exact hpidx)
          refine ⟨k + k', log ++ log', ?_, hsame.trans hs.same, hs.regs.trans hregs, ?_, ?_, nofun,
            fun hok hhead hwhole => hread.servedBytes h hs rfl hleft hok hhead hwhole, ?_,
            fun hw hpend hnd => ?_⟩
          · rw [← Nat.add_assoc]
            exact hs.rx
          · rw [hs.copied, ← List.append_assoc]
            exact congrArg (· ++ log') hread.copied
          · have h1 := hread.dlen
            have h2 : _ = (descqStC2hRead q cb false false).1.flq.pktDlen := hs.dlen
            rw [copyBytes_append, List.length_append]
            omega
          · intro hok hpl
            refine hs.pendOk (fun c hc => hok c (List.mem_cons_of_mem _ hc)) (fun c hc => ?_)
            rcases hsub c hc with rfl | hc
            · exact hread.cbOk (hok cb List.mem_cons_self)
            · exact hpl c (by rwa [hread.pendList] at hc)
          · have hwcb := hw cb List.mem_cons_self
            have hp := hlist (by rw [← hwcb.left_eq]; exact h0) (hread.pendList.trans hpend) hnd
              hread.cb_eq.1
            rw [if_pos hleft] at hp
            exact hread.drawnNext hw hleft (hs.waiting (fun c hc => hw c (List.mem_cons_of_mem _ hc))
              hp (List.nodup_cons.mp hnd).2)

end Qdma
