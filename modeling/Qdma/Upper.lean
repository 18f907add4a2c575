/-
# The receive buffers of a queue with packet handler

A packet handler takes the pages of the packets it accepts; `rcv_pkt` then moves `pidx_pend`
to the last buffer of the packet, and the end of the service call posts new pages up to
there.

`UpBufs` is the law of these buffers while the handler refuses no packet and every refill
succeeds: how far `pidx_pend`, `avail` and the doorbells have got.  With it the buffers the
device may use are posted, belong to their slot, and are as many as `avail` says
(`exposed_slots_held`).
-/
import Qdma.Completions

namespace Qdma

open RingIndex Exec

/-! ## Whose a buffer is -/

/-- The page of slot `i` is mapped and the descriptor points to it. -/
structure Descq.Posted (d : Descq) (i : ℕ) : Prop where
  page : (d.flq.sdesc i).pg ≠ none
  mapped : (d.flq.sdesc i).dmaAddr ≠ 0
  addr : (d.desc.slot i).dstAddr = (d.flq.sdesc i).dmaAddr

/-- The slots of a scatter-gather chain of `n` free-list entries from `i` on. -/
def Flq.chain (q : Flq) : ℕ → ℕ → List ℕ
  | 0, _ => []
  | n + 1, i => i :: q.chain n (q.next i)

/-- The slots whose pages the handler takes in the loop of a service call. -/
def procGiven : ℕ → Proc → List ℕ
  | 0, _ => []
  | n + 1, p =>
      let (d, cmpl, rv) := parseCmplEntry p.d
      if rv < 0 then []
      else if cmpl.color ≠ d.color then []
      else
        let (d', cmpl', rv) := rcvEntry d (cmpl.withPidx p.pidx)
        if rv < 0 then []
        else (if cmpl.descUsed then d.flq.chain (flNr d.flq.pgShift cmpl.len) p.pidx else []) ++
          procGiven n { d := wrbNext d', pidx := cmpl'.pidx, procCnt := p.procCnt + 1 }

/-- The allocation and the mapping succeed. -/
def FillOutcome.isOk : FillOutcome → Bool
  | .ok _ _ => true
  | _ => false

/-- The address of the mapping. -/
def FillOutcome.addr : FillOutcome → ℕ
  | .ok _ dmaAddr => dmaAddr
  | _ => 0

/-- The slots a refill posts new pages to. -/
def refilledSlots (fill : ℕ → FillOutcome) (size : ℕ) : ℕ → ℕ → List ℕ
  | 0, _ => []
  | count + 1, idx =>
      let idx := if idx = size then 0 else idx
      if (fill idx).isOk then idx :: refilledSlots fill size count (idx + 1) else []

/-- A queue with its device, and the slots whose page is with the handler. -/
structure Ux where
  c : Cx
  lent : ℕ → Bool := fun _ => false

/-- The slots lent after a service call. -/
def lentAfter (d : Descq) (budget : ℤ) (fill : ℕ → FillOutcome) (lent : ℕ → Bool) : ℕ → Bool :=
  if d.err then lent else
  let n := procBudget budget (ringIdxDelta d.descWrb.wbPidx d.cidxWrb d.conf.rngszWrb)
  let p := procLoop n { d := d, pidx := d.pidx }
  let posted := refilledSlots fill p.d.flq.size
    (ringIdxDelta p.d.flq.pidxPend d.flq.pidxPend p.d.flq.size) d.flq.pidxPend
  fun i =>
    if i ∈ posted then false
    else if i ∈ procGiven n { d := d, pidx := d.pidx } then true
    else lent i

/-- One step. -/
def Ux.step (u : Ux) : CxLabel → Ux
  | .upper budget fill fp =>
      { c := u.c.step (.upper budget fill fp)
        lent := lentAfter (u.c.s.withHandler fp).q budget fill u.lent }
  | .rx l => { u with c := u.c.step (.rx l) }

/-- The slots the device may use next. -/
def exposedSlots (d : Descq) : List ℕ := stretch d.conf.rngsz id d.pidx d.regs.pidx

/-- **The device is given no empty slot**: what it may use is posted and not with the
handler, and as much as `avail` says. -/
structure SlotsHeld (u : Ux) : Prop where
  posted : ∀ i ∈ exposedSlots u.c.s.q, u.c.s.q.Posted i ∧ u.lent i = false
  avail : u.c.s.q.avail = (exposedSlots u.c.s.q).length

/-- The handler refuses no packet, and the refill succeeds; address 0 stands for a page that
is not mapped. -/
def CxLabel.Succeeds : CxLabel → Prop
  | .upper _ fill fp =>
      (∀ a, a.sgcnt ≠ 0 → 0 ≤ fp a) ∧ ∀ i, (fill i).isOk = true ∧ (fill i).addr ≠ 0
  | .rx _ => True

/-! ## The law -/

/-- The sizes of the free list. -/
structure UpSizes (d : Descq) : Prop where
  pos : 1 ≤ d.conf.rngsz
  le_max : d.conf.rngsz ≤ 65535
  size : d.flq.size = d.conf.rngsz
  shift : d.flq.pgShift ≤ 31
  bufsz : d.conf.c2hBufsz = 2 ^ d.flq.pgShift

/-- They are read off the configuration and the free list. -/
theorem UpSizes.congr {d d' : Descq} (h : UpSizes d) (hconf : d'.conf = d.conf)
    (hsize : d'.flq.size = d.flq.size) (hshift : d'.flq.pgShift = d.flq.pgShift) :
    UpSizes d' := by
  obtain ⟨z1, z2, z3, z4, z5⟩ := h
  constructor <;> simp only [hconf, hsize, hshift] <;> assumption

/-- The buffers of the first `r` entries. -/
def bufCnt (d : Descq) (sent : List Cmpl) (r : ℕ) : ℕ :=
  (allBufs d.conf.c2hBufsz (sent.take r)).length

/-- **The law of the buffers** with `r` entries gone through and the first `F` buffers posted
again. -/
structure UpBufs (d : Descq) (sent : List Cmpl) (r F : ℕ) : Prop where
  sizes : UpSizes d
  pidxPend : d.flq.pidxPend = (bufCnt d sent r - 1) % d.conf.rngsz
  avail : d.avail + bufCnt d sent r = d.conf.rngsz - 1 + F
  le : F ≤ bufCnt d sent r
  room : (allBufs d.conf.c2hBufsz sent).length < F + d.conf.rngsz

/-- The buffers posted after the first `T` are neither empty nor lent. -/
def Kept (d : Descq) (lent : ℕ → Bool) (T F : ℕ) : Prop :=
  ∀ j, T ≤ j → j < F + d.conf.rngsz →
    d.Posted (j % d.conf.rngsz) ∧ lent (j % d.conf.rngsz) = false

theorem bufCnt_le (d : Descq) (sent : List Cmpl) (r : ℕ) :
    bufCnt d sent r ≤ (allBufs d.conf.c2hBufsz sent).length :=
  (allBufs_isPrefix d.conf.c2hBufsz sent r).length_le

theorem bufCnt_mono (d : Descq) (sent : List Cmpl) (r k : ℕ) :
    bufCnt d sent r ≤ bufCnt d sent (r + k) := by
  have htake : (sent.take (r + k)).take r = sent.take r := by
    rw [List.take_take, Nat.min_eq_left (Nat.le_add_right r k)]
  have hle := (allBufs_isPrefix d.conf.c2hBufsz (sent.take (r + k)) r).length_le
  rwa [htake] at hle

theorem bufCnt_congr {d d' : Descq} (hconf : d'.conf = d.conf) (sent : List Cmpl) (r : ℕ) :
    bufCnt d' sent r = bufCnt d sent r := by
  unfold bufCnt
  rw [hconf]

theorem bufCnt_append (d : Descq) {sent : List Cmpl} {r : ℕ} (hr : r ≤ sent.length) (c : Cmpl) :
    bufCnt d (sent ++ [c]) r = bufCnt d sent r := by
  unfold bufCnt
  rw [List.take_append_of_le_length hr]

/-- A queue that has the same sizes, buffers and counters. -/
theorem UpBufs.congr {d d' : Descq} {sent : List Cmpl} {r F : ℕ} (h : UpBufs d sent r F)
    (hconf : d'.conf = d.conf) (hflq : d'.flq = d.flq) (havail : d'.avail = d.avail) :
    UpBufs d' sent r F := by
  obtain ⟨h1, h2, h3, h5, h6⟩ := h
  refine ⟨h1.congr hconf (congrArg Flq.size hflq) (congrArg Flq.pgShift hflq), ?_, ?_, ?_, ?_⟩
  · rw [hflq, bufCnt_congr hconf, hconf]; exact h2
  · rw [havail, bufCnt_congr hconf, hconf]; exact h3
  · rw [bufCnt_congr hconf]; exact h5
  · rw [hconf]; exact h6

/-- What the free list looks like does not decide what is posted, but for the pages. -/
theorem Descq.Posted.congr {d d' : Descq} {i : ℕ} (h : d.Posted i)
    (hpg : (d'.flq.sdesc i).pg = (d.flq.sdesc i).pg)
    (hdma : (d'.flq.sdesc i).dmaAddr = (d.flq.sdesc i).dmaAddr)
    (hslot : d'.desc.slot = d.desc.slot) : d'.Posted i :=
  ⟨by rw [hpg]; exact h.page, by rw [hdma]; exact h.mapped, by rw [hdma, hslot]; exact h.addr⟩

/-! ## Receiving -/

theorem setLastLen_pages (q : Flq) (last len i : ℕ) :
    ((q.setLastLen last len).sdesc i).pg = (q.sdesc i).pg ∧
      ((q.setLastLen last len).sdesc i).dmaAddr = (q.sdesc i).dmaAddr ∧
      (q.setLastLen last len).size = q.size ∧ (q.setLastLen last len).pgShift = q.pgShift := by
  have hset : ∀ l, ((q.setSdesc last { q.sdesc last with len := l }).sdesc i).pg = (q.sdesc i).pg ∧
      ((q.setSdesc last { q.sdesc last with len := l }).sdesc i).dmaAddr = (q.sdesc i).dmaAddr := by
    intro l
    show (Function.update q.sdesc last _ i).pg = _ ∧ (Function.update q.sdesc last _ i).dmaAddr = _
    by_cases hi : i = last
    · rw [hi, Function.update_self]
      exact ⟨rfl, rfl⟩
    · rw [Function.update_of_ne hi]
      exact ⟨rfl, rfl⟩
  unfold Flq.setLastLen
  simp only
  split_ifs
  · exact ⟨(hset _).1, (hset _).2, rfl, rfl⟩
  · exact ⟨rfl, rfl, rfl, rfl⟩
  · exact ⟨(hset _).1, (hset _).2, rfl, rfl⟩

/-- What an entry of `nr` buffers does on a queue whose handler takes it. -/
structure UpRcv (d d' : Descq) (T nr : ℕ) : Prop where
  conf : d'.conf = d.conf
  avail : d'.avail = d.avail - nr
  size : d'.flq.size = d.flq.size
  pgShift : d'.flq.pgShift = d.flq.pgShift
  pidxPend : d'.flq.pidxPend = if nr = 0 then d.flq.pidxPend else (T + nr - 1) % d.conf.rngsz
  page : ∀ i, (d'.flq.sdesc i).pg = (d.flq.sdesc i).pg
  dma : ∀ i, (d'.flq.sdesc i).dmaAddr = (d.flq.sdesc i).dmaAddr
  slot : d'.desc.slot = d.desc.slot
  pend : nr = 0 → d'.cidxWrbPend = d.cidxWrbPend

theorem UpBufs.rcvd {d d' : Descq} {sent : List Cmpl} {r F nr : ℕ} (h : UpBufs d sent r F)
    (hrcv : UpRcv d d' (bufCnt d sent r) nr)
    (hnr : bufCnt d sent (r + 1) = bufCnt d sent r + nr) : UpBufs d' sent (r + 1) F := by
  have hle := bufCnt_le d sent (r + 1)
  have hroom := h.room
  have hav := h.avail
  obtain ⟨h1, h2, -, h5, -⟩ := h
  have hcnt := bufCnt_congr hrcv.conf sent (r + 1)
  refine ⟨h1.congr hrcv.conf hrcv.size hrcv.pgShift, ?_, ?_, ?_, ?_⟩
  · rw [hrcv.pidxPend, hcnt, hnr, hrcv.conf]
    split_ifs with h0
    · rw [h0, Nat.add_zero]
      exact h2
    · rfl
  · rw [hrcv.avail, hcnt, hnr, hrcv.conf]
    omega
  · rw [hcnt]
    omega
  · rw [hrcv.conf]
    exact hroom

/-- The buffers of an entry. -/
theorem bufCnt_succ (d : Descq) {sent : List Cmpl} {r : ℕ} (hr : r < sent.length) :
    bufCnt d sent (r + 1) = bufCnt d sent r + (sent[r].bufs d.conf.c2hBufsz).length := by
  unfold bufCnt
  rw [allBufs_take_succ _ hr, List.length_append]

/-- Every call of the handler for a packet is answered with yes. -/
def Descq.TakesPackets (d : Descq) : Prop :=
  ∃ fp, d.conf.fpDescqC2hPacket = some fp ∧ ∀ a, a.sgcnt ≠ 0 → 0 ≤ fp a

/-- **An entry** is received, unless it has no packet and is refused. -/
theorem UpBufs.rcvEntry {d : Descq} {sent : List Cmpl} {r F : ℕ} (h : UpBufs d sent r F)
    (hring : CmplRing d sent r) (hr : r < sent.length) (hfp : d.TakesPackets) :
    let nr := (sent[r].bufs d.conf.c2hBufsz).length
    let cmpl := (cmplInfo sent[r].word).withPidx (bufCnt d sent r % d.conf.rngsz)
    ((rcvEntry d cmpl).2.2 < 0 → (rcvEntry d cmpl).1 = d) ∧
      (¬ (rcvEntry d cmpl).2.2 < 0 → UpRcv d (rcvEntry d cmpl).1 (bufCnt d sent r) nr ∧
        (rcvEntry d cmpl).2.1.pidx = (bufCnt d sent r + nr) % d.conf.rngsz ∧
        ((cmplInfo sent[r].word).descUsed = true →
          flNr d.flq.pgShift (cmplInfo sent[r].word).len = nr)) := by
  intro nr cmpl
  obtain ⟨-, hgood⟩ := hring.entry r hr le_rfl
  obtain ⟨fp, hfp, htakes⟩ := hfp
  obtain ⟨z1, z2, z3, z4, z5⟩ := h.sizes
  have hroom := h.room
  have hle := bufCnt_le d sent (r + 1)
  have hsucc := bufCnt_succ d hr
  have hF := h.le
  have hav := h.avail
  have hmax := Nat.mod_lt (bufCnt d sent r) z1
  cases hused : sent[r].word.testBit 3 with
  | false =>
      -- the entry stands for no packet: the handler is called with none
      have hnr : nr = 0 := by
        show (sent[r].bufs d.conf.c2hBufsz).length = 0
        rw [Cmpl.bufs, if_neg (by rw [hused]; decide)]
        rfl
      have hno : cmpl.descUsed = false := hused
      have hudd := hgood.udd hused
      have heq : Qdma.rcvEntry d cmpl
          = (d, cmpl, fp { len := 0, sgcnt := 0, slot := 0, udd := some cmpl.entry }) := by
        unfold Qdma.rcvEntry rcvUddOnly
        simp only [hno, Bool.false_eq_true, if_false, hudd, if_true, hfp]
      rw [heq, hnr]
      exact ⟨fun _ => rfl, fun _ => ⟨⟨rfl, rfl, rfl, rfl, rfl, fun _ => rfl, fun _ => rfl, rfl,
        fun _ => rfl⟩, rfl, fun h => absurd (hno.symm.trans h) (by decide)⟩⟩
  | true =>
      have hyes : cmpl.descUsed = true := hused
      -- the entry of a packet: its length is the packet's, and its buffers are counted alike
      have hlen : cmpl.len = sent[r].payload.length := by
        show (if !sent[r].word.testBit 0 && sent[r].word.testBit 3 then _ else 0) = _
        rw [hgood.format, hused, if_pos (by rfl)]
        exact hgood.len hused
      have hle65 : sent[r].payload.length ≤ 65535 := by
        rw [← hgood.len hused]
        exact Nat.and_le_right
      have hB : 0 < d.conf.c2hBufsz := by
        rw [z5]
        exact Nat.two_pow_pos _
      have hnr : nr = pktNr d.conf.c2hBufsz sent[r].payload.length := by
        show (sent[r].bufs d.conf.c2hBufsz).length = _
        rw [Cmpl.bufs, if_pos hused, length_packetBufs hB]
      have hnr1 : 1 ≤ nr := by
        rw [hnr]
        exact pktNr_pos hB _
      have hfl : flNr d.flq.pgShift cmpl.len = nr := by
        rw [hlen, flNr_eq z4 hle65, ← z5, hnr]
      have hsucc' : bufCnt d sent (r + 1) = bufCnt d sent r + nr := hsucc
      have hlast : ringIdxIncr cmpl.pidx (u32Sub nr 1) d.conf.rngsz
          = (bufCnt d sent r + nr - 1) % d.conf.rngsz := by
        show ringIdxIncr (bufCnt d sent r % d.conf.rngsz) (u32Sub nr 1) d.conf.rngsz = _
        rw [u32Sub_of_le (by omega) hnr1, ringIdxIncr_eq_adv (by omega) hmax (by omega), adv_mod,
          Nat.add_sub_assoc hnr1]
      have hnext : ringIdxIncr ((bufCnt d sent r + nr - 1) % d.conf.rngsz) 1 d.conf.rngsz
          = (bufCnt d sent r + nr) % d.conf.rngsz := by
        rw [ringIdxIncr_eq_adv (by omega) (Nat.mod_lt _ z1) z1, adv_mod,
          Nat.sub_add_cancel (by omega)]
      have havail : u32Sub d.avail nr = d.avail - nr := u32Sub_of_le (by omega) (by omega)
      -- the packet is taken, so that its buffers are
      obtain ⟨d', heq⟩ : ∃ d', d' = { d with
          avail := d.avail - nr
          flq := { d.flq.setLastLen ((bufCnt d sent r + nr - 1) % d.conf.rngsz) cmpl.len with
            pidxPend := (bufCnt d sent r + nr - 1) % d.conf.rngsz }
          cidxWrbPend := d.cidxWrb } := ⟨_, rfl⟩
      have hpkt : Qdma.rcvEntry d cmpl
          = (d', cmpl.withPidx ((bufCnt d sent r + nr) % d.conf.rngsz), 0) := by
        unfold Qdma.rcvEntry rcvPkt
        simp only [hyes, if_true, hfl, hlast, hnext, havail, hfp]
        rw [if_neg (not_lt.mpr (htakes _ (by show nr ≠ 0; omega))), heq]
      have hpages := setLastLen_pages d.flq ((bufCnt d sent r + nr - 1) % d.conf.rngsz) cmpl.len
      rw [hpkt]
      refine ⟨fun h => absurd h (lt_irrefl 0),
        fun _ => ⟨⟨?_, ?_, ?_, ?_, ?_, ?_, ?_, ?_, ?_⟩, rfl, fun _ => hfl⟩⟩
      all_goals rw [heq]
      · exact (hpages 0).2.2.1
      · exact (hpages 0).2.2.2
      · rw [if_neg (by omega)]
      · exact fun i => (hpages i).1
      · exact fun i => (hpages i).2.1
      · exact fun h0 => absurd h0 (by omega)

/-! ## The loop -/

theorem chain_mod {q : Flq} {n T : ℕ} (hn : 0 < n) (hsize : q.size = n) (k : ℕ) :
    q.chain k (T % n) = (List.range k).map (fun j => (T + j) % n) := by
  induction k generalizing T with
  | zero => rfl
  | succ k ih =>
      have hnext : q.next (T % n) = (T + 1) % n := by
        unfold Flq.next
        rw [hsize, ← adv_one (Nat.mod_lt T hn), adv_mod]
      rw [Flq.chain, hnext, ih, List.range_succ_eq_map, List.map_cons, List.map_map]
      congr 1
      apply List.map_congr_left
      intro j _
      show (T + 1 + j) % n = (T + (j + 1)) % n
      congr 1
      omega

theorem UpBufs.wrbNext {d : Descq} {sent : List Cmpl} {r F : ℕ} (h : UpBufs d sent r F) :
    UpBufs (wrbNext d) sent r F := by
  unfold Qdma.wrbNext
  split_ifs
  · exact h.congr rfl rfl rfl
  · exact h.congr rfl rfl rfl

/-- **The loop** receives the buffers of the entries it goes through, and gives them to the
handler. -/
theorem UpBufs.procLoop {sent : List Cmpl} (m : ℕ) {r F : ℕ} {p : Proc} (h : UpBufs p.d sent r F)
    (hring : CmplRing p.d sent r) (hfp : p.d.TakesPackets) (hm : r + m ≤ sent.length)
    (hpidx : p.pidx = bufCnt p.d sent r % p.d.conf.rngsz) :
    ∃ j ≤ m, UpBufs (Qdma.procLoop m p).d sent (r + j) F ∧
      (Qdma.procLoop m p).procCnt = p.procCnt + j ∧
      (Qdma.procLoop m p).pidx = bufCnt p.d sent (r + j) % p.d.conf.rngsz ∧
      (∀ i ∈ procGiven m p, ∃ k, bufCnt p.d sent r ≤ k ∧ k < bufCnt p.d sent (r + j) ∧
        i = k % p.d.conf.rngsz) ∧
      (bufCnt p.d sent (r + j) = bufCnt p.d sent r →
        (Qdma.procLoop m p).d.cidxWrbPend = p.d.cidxWrbPend) ∧
      ∀ i, p.d.Posted i → (Qdma.procLoop m p).d.Posted i := by
  induction m generalizing r p with
  | zero =>
      exact ⟨0, le_rfl, h, rfl, hpidx, fun _ hi => absurd hi List.not_mem_nil, fun _ => rfl,
        fun _ h => h⟩
  | succ m ih =>
      have hr : r < sent.length := by omega
      obtain ⟨hparse, hcolor⟩ := hring.parse hr
      obtain ⟨hrefused, htaken⟩ := h.rcvEntry hring hr hfp
      have hgo := (Gone.entry hring hr
        ((cmplInfo sent[r].word).withPidx (bufCnt p.d sent r % p.d.conf.rngsz))).2
      rw [Qdma.procLoop, procGiven]
      simp only [hparse, lt_irrefl, if_false, hcolor, ne_eq, not_true_eq_false, hpidx]
      set cmpl := (cmplInfo sent[r].word).withPidx (bufCnt p.d sent r % p.d.conf.rngsz) with hcmpl
      by_cases hrv : (Qdma.rcvEntry p.d cmpl).2.2 < 0
      · rw [if_pos hrv, if_pos hrv]
        -- the handler refuses the entry, and the loop ends
        rw [hrefused hrv]
        exact ⟨0, Nat.zero_le _, h, rfl, rfl, fun _ hi => absurd hi List.not_mem_nil, fun _ => rfl,
          fun _ h => h⟩
      · rw [if_neg hrv, if_neg hrv]
        obtain ⟨hrcv, hpidx', hfl⟩ := htaken hrv
        have hsucc := bufCnt_succ p.d hr
        have hbufs := (h.rcvd hrcv hsucc).wrbNext
        have hcnt : ∀ k, bufCnt (Qdma.wrbNext (Qdma.rcvEntry p.d cmpl).1) sent k = bufCnt p.d sent k :=
          bufCnt_congr hgo.conf sent
        obtain ⟨j, hj, hrest, hproc, hlast, hgiven, hpend, hposted⟩ := ih (p := {
            d := Qdma.wrbNext (Qdma.rcvEntry p.d cmpl).1
            pidx := (Qdma.rcvEntry p.d cmpl).2.1.pidx
            procCnt := p.procCnt + 1 }) hbufs hgo.ring
            (by unfold Descq.TakesPackets at hfp ⊢; rw [hgo.conf]; exact hfp) (by omega)
            (by rw [hcnt, hgo.conf, hpidx', hsucc])
        simp only [hcnt, hgo.conf] at hlast hgiven hpend
        have hadd : r + (j + 1) = r + 1 + j := by omega
        have hmono := bufCnt_mono p.d sent (r + 1) j
        rw [← hadd] at hrest hlast hgiven hpend hmono
        refine ⟨j + 1, by omega, hrest, ?_, hlast, fun i hi => ?_, fun hsame => ?_, fun i hi => ?_⟩
        · rw [hproc]
          exact Nat.add_right_comm _ _ _
        · rcases List.mem_append.mp hi with hi | hi
          · split_ifs at hi with hused
            · rw [hfl hused, chain_mod h.sizes.pos h.sizes.size] at hi
              obtain ⟨k, hk, rfl⟩ := List.mem_map.mp hi
              rw [List.mem_range] at hk
              exact ⟨_, Nat.le_add_right _ k, by omega, rfl⟩
            · exact absurd hi List.not_mem_nil
          · obtain ⟨k, h1, h2, h3⟩ := hgiven i hi
            exact ⟨k, by omega, h2, h3⟩
        · have hwrb : ∀ d, (Qdma.wrbNext d).cidxWrbPend = d.cidxWrbPend := by
            intro d
            unfold Qdma.wrbNext
            split_ifs <;> rfl
          rw [hpend (by omega), hwrb, hrcv.pend (by omega)]
        · refine hposted i ?_
          have hi' : (Qdma.rcvEntry p.d cmpl).1.Posted i :=
            hi.congr (hrcv.page i) (hrcv.dma i) hrcv.slot
          show (Qdma.wrbNext (Qdma.rcvEntry p.d cmpl).1).Posted i
          unfold Qdma.wrbNext
          split_ifs <;> exact hi'.congr rfl rfl rfl

/-! ## Posting new pages -/

/-- What a refill that succeeds does. -/
structure Refilled (fill : ℕ → FillOutcome) (d d' : Descq) (F count : ℕ) : Prop where
  avail : d'.avail = d.avail + count
  pidxPend : d'.flq.pidxPend = d.flq.pidxPend
  size : d'.flq.size = d.flq.size
  pgShift : d'.flq.pgShift = d.flq.pgShift
  keep : (∀ i, (fill i).addr ≠ 0) → ∀ i, d.Posted i → d'.Posted i
  posted : (∀ i, (fill i).addr ≠ 0) → ∀ j, F ≤ j → j < F + count → d'.Posted (j % d.flq.size)

/-- One buffer. -/
theorem posted_fillOne (d : Descq) (i pg addr : ℕ) :
    let d' := ((flqFillOne (flqUnmapOne d i) i (.ok pg addr)).1).refilled i
    (addr ≠ 0 → d'.Posted i) ∧ (addr ≠ 0 → ∀ k, d.Posted k → d'.Posted k) ∧ d'.avail = d.avail + 1 ∧
      d'.flq.pidxPend = d.flq.pidxPend ∧ d'.flq.size = d.flq.size ∧
      d'.flq.pgShift = d.flq.pgShift := by
  have hunmap : (flqUnmapOne d i).avail = d.avail ∧
      (flqUnmapOne d i).flq.pidxPend = d.flq.pidxPend ∧
      (flqUnmapOne d i).flq.size = d.flq.size ∧
      (flqUnmapOne d i).flq.pgShift = d.flq.pgShift ∧
      ∀ k ≠ i, (flqUnmapOne d i).flq.sdesc k = d.flq.sdesc k ∧
        (flqUnmapOne d i).desc.slot k = d.desc.slot k := by
    unfold flqUnmapOne
    split_ifs
    · exact ⟨rfl, rfl, rfl, rfl, fun k hk =>
        ⟨Function.update_of_ne hk _ _, Function.update_of_ne hk _ _⟩⟩
    · exact ⟨rfl, rfl, rfl, rfl, fun k _ => ⟨rfl, rfl⟩⟩
  obtain ⟨h1, h2, h3, h4, h5⟩ := hunmap
  intro d'
  have hsdesc : d'.flq.sdesc = Function.update (flqUnmapOne d i).flq.sdesc i
      { pg := some pg, dmaAddr := addr, len := (flqUnmapOne d i).flq.fullLen, offset := 0 } := rfl
  have hslot : d'.desc.slot = Function.update (flqUnmapOne d i).desc.slot i
      { (flqUnmapOne d i).desc.slot i with dstAddr := addr } := rfl
  have hposted : addr ≠ 0 → d'.Posted i := by
    intro haddr
    refine ⟨?_, ?_, ?_⟩ <;> rw [hsdesc, Function.update_self]
    · exact Option.some_ne_none pg
    · exact haddr
    · rw [hslot, Function.update_self]
  refine ⟨hposted, fun haddr k hk => ?_, congrArg (· + 1) h1, h2, h3, h4⟩
  by_cases hki : k = i
  · rw [hki]
    exact hposted haddr
  · obtain ⟨p1, p2, p3⟩ := hk
    obtain ⟨e1, e2⟩ := h5 k hki
    refine ⟨?_, ?_, ?_⟩ <;> rw [hsdesc, Function.update_of_ne hki, e1]
    · exact p1
    · exact p2
    · rw [hslot, Function.update_of_ne hki, e2]
      exact p3

/-- **A refill** that succeeds posts its buffers. -/
theorem refill_posted {fill : ℕ → FillOutcome} (hfill : ∀ i, (fill i).isOk = true) (count : ℕ)
    {F idx : ℕ} {d : Descq} (hn : 0 < d.flq.size)
    (hidx : (if idx = d.flq.size then 0 else idx) = F % d.flq.size) :
    Refilled fill d (qdmaFlqRefill fill false count idx d) F count ∧
      ∀ j, F ≤ j → j < F + count → j % d.flq.size ∈ refilledSlots fill d.flq.size count idx := by
  induction count generalizing F idx d with
  | zero =>
      exact ⟨⟨rfl, rfl, rfl, rfl, fun _ _ h => h, fun _ j h1 h2 => by omega⟩,
        fun j h1 h2 => by omega⟩
  | succ count ih =>
      obtain ⟨pg, addr, hok⟩ : ∃ pg addr, fill (F % d.flq.size) = .ok pg addr := by
        have hf := hfill (F % d.flq.size)
        cases hc : fill (F % d.flq.size) with
        | ok pg addr => exact ⟨pg, addr, rfl⟩
        | noMem | mapErr =>
            rw [hc] at hf
            exact absurd hf (by decide)
      obtain ⟨o1, o2, o3, o4, o5, o6⟩ := posted_fillOne d (F % d.flq.size) pg addr
      rw [qdmaFlqRefill, refilledSlots]
      simp only [hidx, Bool.false_eq_true, if_false, hfill, if_true]
      rw [hok]
      have hrv : ¬ (flqFillOne (flqUnmapOne d (F % d.flq.size)) (F % d.flq.size)
          (.ok pg addr)).2 < 0 := lt_irrefl 0
      rw [if_neg hrv]
      generalize ((flqFillOne (flqUnmapOne d (F % d.flq.size)) (F % d.flq.size)
        (.ok pg addr)).1).refilled (F % d.flq.size) = d1 at o1 o2 o3 o4 o5 o6 ⊢
      have hlt := Nat.mod_lt F hn
      have hidx1 : (if F % d.flq.size + 1 = d1.flq.size then 0 else F % d.flq.size + 1)
          = (F + 1) % d1.flq.size := by
        rw [o5, ← adv_one hlt, adv_mod]
      -- the first slot is posted; the others follow by induction
      obtain ⟨⟨r1, r2, r3, r4, r5, r6⟩, r7⟩ := ih (F := F + 1) (d := d1) (by rw [o5]; exact hn) hidx1
      rw [o5] at r6 r7
      have haddr : (∀ i, (fill i).addr ≠ 0) → addr ≠ 0 := by
        intro hnz
        have h := hnz (F % d.flq.size)
        rw [hok] at h
        exact h
      refine ⟨⟨by omega, r2.trans o4, r3.trans o5, r4.trans o6,
        fun hnz i hi => r5 hnz i (o2 (haddr hnz) i hi), ?_⟩, ?_⟩
      · intro hnz j h1 h2
        rcases Nat.eq_or_lt_of_le h1 with heq | hlt'
        · rw [← heq]
          exact r5 hnz _ (o1 (haddr hnz))
        · exact r6 hnz j hlt' (by omega)
      · intro j h1 h2
        rcases Nat.eq_or_lt_of_le h1 with heq | hlt'
        · rw [← heq]
          exact List.mem_cons_self
        · exact List.mem_cons_of_mem _ (r7 j hlt' (by omega))

/-- **The refill of a service call** posts the buffers up to the one before the last. -/
theorem UpBufs.procRefill {d : Descq} {sent : List Cmpl} {r F : ℕ} (h : UpBufs d sent r F)
    {fill : ℕ → FillOutcome} (hfill : ∀ i, (fill i).isOk = true)
    (hup : d.conf.fpDescqC2hPacket.isNone = false) (hle : F ≤ bufCnt d sent r - 1)
    (hbell : d.regs.pidx = (F + d.conf.rngsz - 1) % d.conf.rngsz) :
    UpBufs (Qdma.procRefill d (F % d.conf.rngsz) fill) sent r (bufCnt d sent r - 1) ∧
      (Qdma.procRefill d (F % d.conf.rngsz) fill).regs.pidx
        = (bufCnt d sent r - 1 + d.conf.rngsz - 1) % d.conf.rngsz ∧
      (∀ j, F ≤ j → j < bufCnt d sent r - 1 → j % d.conf.rngsz ∈
        refilledSlots fill d.flq.size (ringIdxDelta d.flq.pidxPend (F % d.conf.rngsz) d.flq.size)
          (F % d.conf.rngsz)) ∧
      ((∀ i, (fill i).addr ≠ 0) →
        (∀ i, d.Posted i → (Qdma.procRefill d (F % d.conf.rngsz) fill).Posted i) ∧
        ∀ j, F ≤ j → j < bufCnt d sent r - 1 →
          (Qdma.procRefill d (F % d.conf.rngsz) fill).Posted (j % d.conf.rngsz)) := by
  have hn := h.sizes.pos
  have hmax := h.sizes.le_max
  have hsize := h.sizes.size
  have hroom := h.room
  have hT := bufCnt_le d sent r
  set F' := bufCnt d sent r - 1 with hF'
  have hpend : d.flq.pidxPend = F' % d.conf.rngsz := h.pidxPend
  have hdelta : ringIdxDelta d.flq.pidxPend (F % d.conf.rngsz) d.flq.size = F' - F := by
    rw [hpend, hsize, ringIdxDelta_mod (by omega) hle (by omega)]
  have hidx : (if F % d.conf.rngsz = d.flq.size then 0 else F % d.conf.rngsz)
      = F % d.flq.size := by
    rw [hsize]
    exact if_neg (Nat.mod_lt F hn).ne
  obtain ⟨hre, hslots⟩ := refill_posted hfill (F' - F) (d := d) (by omega) hidx
  have hconf : (qdmaFlqRefill fill false (F' - F) (F % d.conf.rngsz) d).conf = d.conf :=
    PostFrame.refill (f := Descq.conf) ⟨fun _ _ _ => rfl, fun _ _ => rfl, fun _ _ => rfl⟩ _ _ _ _ _
  refine ⟨?_, ?_, ?_, fun hnz => ?_⟩
  · -- the counters
    obtain ⟨h1, h2, h3, h5, h6⟩ := h
    have hkeep : UpBufs (qdmaFlqRefill fill false (F' - F) (F % d.conf.rngsz) d) sent r F' := by
      refine ⟨h1.congr hconf hre.size hre.pgShift, ?_, ?_, ?_, ?_⟩
      · rw [hre.pidxPend, bufCnt_congr hconf, hconf]; exact h2
      · rw [hre.avail, bufCnt_congr hconf, hconf]
        omega
      · rw [bufCnt_congr hconf]
        omega
      · rw [hconf]
        omega
    unfold Qdma.procRefill
    simp only [hdelta, hup]
    split_ifs with hne
    · exact hkeep.congr rfl rfl rfl
    · have heq : F' = F := by
        by_contra hlt
        exact hne (by rw [hpend]; exact (mod_ne_mod (by omega) (by omega)).symm)
      rw [heq, Nat.sub_self] at hkeep
      rw [heq]
      exact hkeep
  · unfold Qdma.procRefill
    simp only [hdelta, hup]
    split_ifs with hne
    · show ringIdxDecr (qdmaFlqRefill fill false (F' - F) (F % d.conf.rngsz) d).flq.pidxPend 1
        (qdmaFlqRefill fill false (F' - F) (F % d.conf.rngsz) d).flq.size = _
      rw [hre.pidxPend, hre.size, hpend, hsize, ringIdxDecr_one_eq_adv (by omega) (Nat.mod_lt _ hn),
        adv_mod]
      congr 1
      omega
    · have heq : F' = F := by
        by_contra hlt
        exact hne (by rw [hpend]; exact (mod_ne_mod (by omega) (by omega)).symm)
      rw [heq]
      exact hbell
  · intro j h1 h2
    have hj := hslots j h1 (by omega)
    rw [hdelta]
    rwa [hsize] at hj ⊢
  · have hsame : ∀ i, (qdmaFlqRefill fill false (F' - F) (F % d.conf.rngsz) d).Posted i →
        (Qdma.procRefill d (F % d.conf.rngsz) fill).Posted i := by
      intro i hi
      unfold Qdma.procRefill
      simp only [hdelta, hup]
      split_ifs with hne
      · exact hi.congr rfl rfl rfl
      · have heq : F' = F := by
          by_contra hlt
          exact hne (by rw [hpend]; exact (mod_ne_mod (by omega) (by omega)).symm)
        rw [heq, Nat.sub_self] at hi
        exact hi
    refine ⟨fun i hi => hsame i (hre.keep hnz i hi), fun j h1 h2 => hsame _ ?_⟩
    have hj := hre.posted hnz j h1 (by omega)
    rwa [hsize] at hj

/-! ## The system -/

/-- **The law of a queue with handler and its buffers.** -/
structure UpLaw (s : Rx) (r : ℕ) : Prop where
  up : UpInv s r
  bufs : UpBufs s.q s.sent r (bufCnt s.q s.sent r - 1)
  pidx : s.q.pidx = bufCnt s.q s.sent r % s.q.conf.rngsz
  bell : s.q.regs.pidx = (bufCnt s.q s.sent r - 1 + s.q.conf.rngsz - 1) % s.q.conf.rngsz
  bufPidx : s.bufPidx = (allBufs s.q.conf.c2hBufsz s.sent).length % s.q.conf.rngsz
  unused : bufCnt s.q s.sent r = 0 → s.q.cidxWrbPend = 0 ∧ s.q.regs.wrbCidx = 0

theorem UpLaw.withHandler {s : Rx} {r : ℕ} (h : UpLaw s r) (fp : PktArgs → ℤ) :
    UpLaw (s.withHandler fp) r := by
  obtain ⟨h1, ⟨⟨z1, z2, z3, z4, z5⟩, b2, b3, b5, b6⟩, h3, h4, h5, h6⟩ := h
  exact ⟨h1.withHandler fp, ⟨⟨z1, z2, z3, z4, z5⟩, b2, b3, b5, b6⟩, h3, h4, h5, h6⟩

/-- The entries a service call may go through. -/
def procDue (d : Descq) (budget : ℤ) : ℕ :=
  procBudget budget (ringIdxDelta d.descWrb.wbPidx d.cidxWrb d.conf.rngszWrb)

/-- The loop of a service call. -/
def procRun (d : Descq) (budget : ℤ) : Proc := procLoop (procDue d budget) { d := d, pidx := d.pidx }

/-- A service call on a queue with handler that no error has stopped. -/
theorem process_up {d : Descq} (hup : d.conf.fpDescqC2hPacket.isSome) (herr : d.err = false)
    (budget : ℤ) (fill : ℕ → FillOutcome) (hret : (procRun d budget).ret = none) :
    (descqProcessCompletionStC2h d budget fill).1
        = procEnd (procRun d budget) d.descWrb.wbPidx d.flq.pidxPend fill ∧
      processed d budget = procLog (procDue d budget) { d := d, pidx := d.pidx } := by
  have hnone : d.conf.fpDescqC2hPacket.isNone = false := by
    rw [← Option.not_isSome, hup]
    rfl
  unfold descqProcessCompletionStC2h processed
  simp only [herr, hnone, Bool.false_and, Bool.false_eq_true, if_false]
  by_cases h0 : ringIdxDelta d.descWrb.wbPidx d.cidxWrb d.conf.rngszWrb = 0
  · rw [if_pos h0]
    have hdue : procDue d budget = 0 := by
      unfold procDue procBudget
      rw [h0]
      split_ifs <;> omega
    refine ⟨?_, rfl⟩
    unfold procRun
    rw [hdue]
    rfl
  · rw [if_neg h0]
    have hret' : (procLoop (procBudget budget (ringIdxDelta d.descWrb.wbPidx d.cidxWrb
      d.conf.rngszWrb)) { d := d, pidx := d.pidx }).ret = none := hret
    simp only [hret']
    exact ⟨rfl, rfl⟩

/-- What a service call of a queue with handler leaves of its receive side. -/
theorem procEnd_up {p : Proc} {sent : List Cmpl} {r F pidxWrb : ℕ} {fill : ℕ → FillOutcome}
    (h : UpBufs p.d sent r F) (hfill : ∀ i, (fill i).isOk = true) (hcnt : p.procCnt ≠ 0)
    (hup : p.d.conf.fpDescqC2hPacket.isNone = false) (hle : F ≤ bufCnt p.d sent r - 1)
    (hbell : p.d.regs.pidx = (F + p.d.conf.rngsz - 1) % p.d.conf.rngsz) :
    let q := procEnd p pidxWrb (F % p.d.conf.rngsz) fill
    UpBufs q sent r (bufCnt p.d sent r - 1) ∧ q.pidx = p.pidx ∧
      q.regs.pidx = (bufCnt p.d sent r - 1 + p.d.conf.rngsz - 1) % p.d.conf.rngsz ∧
      q.cidxWrbPend = p.d.cidxWrbPend ∧ q.regs.wrbCidx = p.d.cidxWrbPend ∧
      (∀ j, F ≤ j → j < bufCnt p.d sent r - 1 → j % p.d.conf.rngsz ∈
        refilledSlots fill p.d.flq.size
          (ringIdxDelta p.d.flq.pidxPend (F % p.d.conf.rngsz) p.d.flq.size)
          (F % p.d.conf.rngsz)) ∧
      ((∀ i, (fill i).addr ≠ 0) → (∀ i, p.d.Posted i → q.Posted i) ∧
        ∀ j, F ≤ j → j < bufCnt p.d sent r - 1 → q.Posted (j % p.d.conf.rngsz)) := by
  intro q
  set d1 : Descq := { p.d with pidxWrb := pidxWrb, pidx := p.pidx } with hd1
  have h1 : UpBufs d1 sent r F := h.congr rfl rfl rfl
  obtain ⟨hbufs, hring, hslots, hposted⟩ := h1.procRefill hfill hup hle hbell
  have hq : q = descqWrbCidxUpdate (procRefill d1 (F % p.d.conf.rngsz) fill)
      (procRefill d1 (F % p.d.conf.rngsz) fill).cidxWrbPend := by
    show procEnd p pidxWrb (F % p.d.conf.rngsz) fill = _
    unfold procEnd
    simp only [hup, Bool.false_eq_true, if_false]
    rw [if_pos hcnt]
  have hpost : (procRefill d1 (F % p.d.conf.rngsz) fill).cidxWrbPend = p.d.cidxWrbPend :=
    pend_postFrame.procRefill d1 _ fill
  have hpidx : (procRefill d1 (F % p.d.conf.rngsz) fill).pidx = p.pidx :=
    PostFrame.procRefill (f := Descq.pidx) ⟨fun _ _ _ => rfl, fun _ _ => rfl, fun _ _ => rfl⟩ d1 _ fill
  rw [hq]
  refine ⟨hbufs.congr rfl rfl rfl, hpidx, hring, hpost, hpost, hslots, fun hnz => ?_⟩
  obtain ⟨hold, hnew⟩ := hposted hnz
  exact ⟨fun i hi => (hold i (hi.congr rfl rfl rfl)).congr rfl rfl rfl,
    fun j j1 j2 => (hnew j j1 j2).congr rfl rfl rfl⟩

/-- **A service call** whose handler takes every packet and whose refill succeeds. -/
theorem UpLaw.service {s : Rx} {r : ℕ} (h : UpLaw s r) (herr : s.q.err = false) (budget : ℤ)
    {fill : ℕ → FillOutcome} (hfp : s.q.TakesPackets) (hfill : ∀ i, (fill i).isOk = true)
    (lent : ℕ → Bool) :
    UpLaw (s.step (.service budget fill)) (r + (processed s.q budget).length) ∧
      ((∀ i, (fill i).addr ≠ 0) →
        Kept s.q lent (bufCnt s.q s.sent r) (bufCnt s.q s.sent r - 1) →
        Kept (s.step (.service budget fill)).q (lentAfter s.q budget fill lent)
          (bufCnt s.q s.sent (r + (processed s.q budget).length))
          (bufCnt s.q s.sent (r + (processed s.q budget).length) - 1)) := by
  obtain ⟨j, hup, hjs, hlog, hkeep, -⟩ := h.up.service budget fill
  obtain ⟨w, hw, hrw, hws⟩ := h.up.published
  have hring := h.up.ring
  have hn := h.bufs.sizes.pos
  have hlap := h.up.lt_lap
  have hdue : procDue s.q budget ≤ w - r := by
    unfold procDue procBudget
    rw [hring.cidx, hw, ringIdxDelta_mod (by have := hring.le_max; omega) hrw (by omega)]
    split_ifs <;> omega
  obtain ⟨j1, -, hgone, hret, hcnt1, hlog1, -⟩ := procLoop_gone (procDue s.q budget)
    (p := { d := s.q, pidx := s.q.pidx }) hring rfl (by omega)
  obtain ⟨j2, -, hbufs, hcnt2, hpidx, hgiven, hpend, hloop⟩ := UpBufs.procLoop (procDue s.q budget)
    (p := { d := s.q, pidx := s.q.pidx }) h.bufs hring hfp (by omega) h.pidx
  obtain ⟨heq, hproc⟩ := process_up h.up.handler herr budget fill hret
  have hlen : (processed s.q budget).length = j := length_of_firstEntries hjs hlog
  have hlen1 : (processed s.q budget).length = j1 := by
    rw [← hproc] at hlog1
    exact length_of_firstEntries hgone.ring.le hlog1
  have hj2 : j2 = j := by omega
  have hj1 : j1 = j := by omega
  subst hj1
  subst hj2
  rw [hlen]
  have hq : (s.step (.service budget fill)).q
      = procEnd (procRun s.q budget) s.q.descWrb.wbPidx s.q.flq.pidxPend fill := heq
  have hconf : (procRun s.q budget).d.conf = s.q.conf := hgone.conf
  have hnone : (procRun s.q budget).d.conf.fpDescqC2hPacket.isNone = false := by
    rw [hconf, ← Option.not_isSome, h.up.handler]
    rfl
  have hcntq : ∀ k, bufCnt (procRun s.q budget).d s.sent k = bufCnt s.q s.sent k :=
    bufCnt_congr hconf s.sent
  have hcnts : ∀ k, bufCnt (s.step (.service budget fill)).q s.sent k = bufCnt s.q s.sent k :=
    bufCnt_congr hkeep.conf s.sent
  have hmono := bufCnt_mono s.q s.sent r j2
  have hroom := h.bufs.room
  have hT := bufCnt_le s.q s.sent (r + j2)
  have hbufs' : UpBufs (procRun s.q budget).d s.sent (r + j2) (bufCnt s.q s.sent r - 1) := hbufs
  have hold : s.q.flq.pidxPend = (bufCnt s.q s.sent r - 1) % s.q.conf.rngsz := h.bufs.pidxPend
  -- the doorbells and the counters
  have hmain : UpBufs (s.step (.service budget fill)).q s.sent (r + j2)
        (bufCnt s.q s.sent (r + j2) - 1) ∧
      (s.step (.service budget fill)).q.pidx = bufCnt s.q s.sent (r + j2) % s.q.conf.rngsz ∧
      (s.step (.service budget fill)).q.regs.pidx
        = (bufCnt s.q s.sent (r + j2) - 1 + s.q.conf.rngsz - 1) % s.q.conf.rngsz ∧
      (bufCnt s.q s.sent (r + j2) = 0 → (s.step (.service budget fill)).q.cidxWrbPend = 0 ∧
        (s.step (.service budget fill)).q.regs.wrbCidx = 0) ∧
      (∀ k, bufCnt s.q s.sent r - 1 ≤ k → k < bufCnt s.q s.sent (r + j2) - 1 →
        k % s.q.conf.rngsz ∈ refilledSlots fill (procRun s.q budget).d.flq.size
          (ringIdxDelta (procRun s.q budget).d.flq.pidxPend s.q.flq.pidxPend
            (procRun s.q budget).d.flq.size) s.q.flq.pidxPend) ∧
      ((∀ i, (fill i).addr ≠ 0) →
        (∀ i, s.q.Posted i → (s.step (.service budget fill)).q.Posted i) ∧
        ∀ k, bufCnt s.q s.sent r - 1 ≤ k → k < bufCnt s.q s.sent (r + j2) - 1 →
          (s.step (.service budget fill)).q.Posted (k % s.q.conf.rngsz)) := by
    have hzero : bufCnt s.q s.sent (r + j2) = 0 →
        (procRun s.q budget).d.cidxWrbPend = 0 ∧ s.q.regs.wrbCidx = 0 := by
      intro h0
      obtain ⟨u1, u2⟩ := h.unused (by omega)
      exact ⟨(hpend (by show bufCnt s.q _ _ = bufCnt s.q _ _; omega)).trans u1, u2⟩
    by_cases hcnt : (procRun s.q budget).procCnt = 0
    · have hj0 : j2 = 0 := by
        have : (procRun s.q budget).procCnt = 0 + j2 := hcnt2
        omega
      have hqd : (s.step (.service budget fill)).q = (procRun s.q budget).d := by
        rw [hq]
        unfold procEnd
        rw [if_neg (not_not.mpr hcnt)]
      have hpidx' : (procRun s.q budget).d.pidx = s.q.pidx :=
        LoopFrame.procLoop (f := Descq.pidx)
          ⟨⟨fun _ _ _ => rfl, fun _ _ => rfl, fun _ _ => rfl⟩, fun _ _ => rfl, fun _ _ _ _ => rfl⟩
          _ _
      have hregs : (procRun s.q budget).d.regs = s.q.regs := hgone.regs
      rw [hqd, hregs]
      refine ⟨?_, ?_, ?_, hzero, fun k h1 h2 => ?_, fun _ => ⟨hloop, fun k h1 h2 => ?_⟩⟩
      · rw [hj0] at hbufs' ⊢
        exact hbufs'
      · rw [hpidx', hj0]
        exact h.pidx
      · rw [hj0]
        exact h.bell
      · rw [hj0] at h2
        exact absurd h1 (by rw [Nat.add_zero] at h2; omega)
      · rw [hj0] at h2
        exact absurd h1 (by rw [Nat.add_zero] at h2; omega)
    · obtain ⟨e1, e2, e3, e4, e5, e6, e7⟩ := @procEnd_up (procRun s.q budget) s.sent (r + j2)
        (bufCnt s.q s.sent r - 1) s.q.descWrb.wbPidx fill hbufs' hfill hcnt hnone
        (by rw [hcntq]; omega)
        (by rw [hconf, show (procRun s.q budget).d.regs = s.q.regs from hgone.regs]; exact h.bell)
      rw [hconf, ← hold, ← hq] at e1 e2 e3 e4 e5
      rw [hconf, ← hold] at e6
      rw [hconf, ← hold, ← hq] at e7
      rw [hcntq] at e1 e3 e6 e7
      refine ⟨e1, e2.trans hpidx, e3, fun h0 => ⟨e4.trans (hzero h0).1, e5.trans (hzero h0).1⟩, e6,
        fun hnz => ⟨fun i hi => (e7 hnz).1 i (hloop i hi), (e7 hnz).2⟩⟩
  obtain ⟨m1, m2, m3, m4, m5, m6⟩ := hmain
  refine ⟨⟨hup, ?_, ?_, ?_, ?_, ?_⟩, ?_⟩
  · show UpBufs _ s.sent _ (bufCnt _ s.sent _ - 1)
    rw [hcnts]
    exact m1
  · show _ = bufCnt _ s.sent _ % _
    rw [hcnts, hkeep.conf]
    exact m2
  · show _ = (bufCnt _ s.sent _ - 1 + _ - 1) % _
    rw [hcnts, hkeep.conf]
    exact m3
  · rw [hkeep.conf]
    exact h.bufPidx
  · show bufCnt _ s.sent _ = 0 → _
    rw [hcnts]
    exact m4
  · -- a slot the device may use is posted again, or was not given away
    intro hnz hkept k h1 h2
    obtain ⟨hold', hnew'⟩ := m6 hnz
    rw [hkeep.conf] at h2 ⊢
    unfold lentAfter
    rw [if_neg (by rw [herr]; decide)]
    show _ ∧ (if k % s.q.conf.rngsz ∈ refilledSlots fill (procRun s.q budget).d.flq.size
        (ringIdxDelta (procRun s.q budget).d.flq.pidxPend s.q.flq.pidxPend
          (procRun s.q budget).d.flq.size) s.q.flq.pidxPend then false
      else if k % s.q.conf.rngsz ∈ procGiven (procDue s.q budget) { d := s.q, pidx := s.q.pidx }
        then true
      else lent (k % s.q.conf.rngsz)) = false
    by_cases hnew : bufCnt s.q s.sent r - 1 + s.q.conf.rngsz ≤ k
    · have hmod : (k - s.q.conf.rngsz) % s.q.conf.rngsz = k % s.q.conf.rngsz := by
        rw [← Nat.add_mod_right, Nat.sub_add_cancel (by omega)]
      have hin := m5 (k - s.q.conf.rngsz) (by omega) (by omega)
      have hp := hnew' (k - s.q.conf.rngsz) (by omega) (by omega)
      rw [hmod] at hin hp
      rw [if_pos hin]
      exact ⟨hp, rfl⟩
    · obtain ⟨hp, hl⟩ := hkept k (by omega) (by omega)
      refine ⟨hold' _ hp, ?_⟩
      split_ifs with hre hg
      · rfl
      · obtain ⟨i, i1, i2, i3⟩ := hgiven _ hg
        exact absurd i3.symm (mod_ne_mod (by
          show i < k
          have : i < bufCnt s.q s.sent (r + j2) := i2
          omega) (by
          show k < i + s.q.conf.rngsz
          have : bufCnt s.q s.sent r ≤ i := i1
          omega))
      · exact hl

/-! ## The steps of the device -/

theorem UpLaw.publish {s : Rx} {r : ℕ} (h : UpLaw s r) {p : ℕ} (hl : RxLegal s (.publish p)) :
    UpLaw (s.publish p) r :=
  ⟨h.up.publish hl.1 hl.2, h.bufs.congr rfl rfl rfl, h.pidx, h.bell, h.bufPidx, h.unused⟩

/-- The device writes only to pages. -/
theorem land_pages (d : Descq) (i : ℕ) (bs : List Buf) (k : ℕ) :
    ((d.land i bs).flq.sdesc k).pg = (d.flq.sdesc k).pg ∧
      ((d.land i bs).flq.sdesc k).dmaAddr = (d.flq.sdesc k).dmaAddr := by
  constructor
  · refine fill_inv FlSdesc.pg d.flq.sdesc _ (fun w hw x => ?_) k
    obtain ⟨b, -, rfl⟩ := List.mem_map.mp hw
    rfl
  · refine fill_inv FlSdesc.dmaAddr d.flq.sdesc _ (fun w hw x => ?_) k
    obtain ⟨b, -, rfl⟩ := List.mem_map.mp hw
    rfl

theorem UpLaw.dma {s : Rx} {r : ℕ} (h : UpLaw s r) {word : ℕ} {payload : List UInt8}
    (hl : RxLegal s (.dma word payload)) : UpLaw (s.dma word payload) r := by
  set c : Cmpl := { word := word, payload := payload, seq := s.sent.length + 1 } with hc
  set bs := c.bufs s.q.conf.c2hBufsz with hbs
  have hn := h.bufs.sizes.pos
  have hroom := h.bufs.room
  have hT := bufCnt_le s.q s.sent r
  have hB : 0 < s.q.conf.c2hBufsz := by
    rw [h.bufs.sizes.bufsz]
    exact Nat.two_pow_pos _
  have hall : allBufs s.q.conf.c2hBufsz (s.sent ++ [c])
      = allBufs s.q.conf.c2hBufsz s.sent ++ bs := by
    rw [allBufs_append, allBufs_singleton]
  have hcnt : bufCnt s.q (s.sent ++ [c]) r = bufCnt s.q s.sent r := bufCnt_append s.q h.up.ring.le c
  have hfit : (allBufs s.q.conf.c2hBufsz s.sent).length + bs.length
      < bufCnt s.q s.sent r - 1 + s.q.conf.rngsz := by
    obtain ⟨-, -, -, -, ⟨h3, -, hfit⟩ | ⟨h3, -, -⟩⟩ := hl
    · have hlen : bs.length = pktNr s.q.conf.c2hBufsz payload.length := by
        rw [hbs, hc, Cmpl.bufs, if_pos h3, length_packetBufs hB]
      rw [h.bufPidx, h.bell, dist_mod (by omega) (by omega)] at hfit
      omega
    · have hlen : bs.length = 0 := by
        rw [hbs, hc, Cmpl.bufs, if_neg (by rw [h3]; decide)]
        rfl
      omega
  obtain ⟨hsizes, b2, b3, -, -⟩ := h.bufs
  refine ⟨h.up.dma hl, ⟨hsizes.congr rfl rfl rfl, ?_, ?_, ?_, ?_⟩, ?_, ?_, ?_, ?_⟩
  · show s.q.flq.pidxPend = (bufCnt s.q (s.sent ++ [c]) r - 1) % s.q.conf.rngsz
    rw [hcnt]
    exact b2
  · show s.q.avail + bufCnt s.q (s.sent ++ [c]) r
      = s.q.conf.rngsz - 1 + (bufCnt s.q (s.sent ++ [c]) r - 1)
    rw [hcnt]
    exact b3
  · exact Nat.sub_le _ _
  · show (allBufs s.q.conf.c2hBufsz (s.sent ++ [c])).length
      < bufCnt s.q (s.sent ++ [c]) r - 1 + s.q.conf.rngsz
    rw [hall, List.length_append, hcnt]
    exact hfit
  · show s.q.pidx = bufCnt s.q (s.sent ++ [c]) r % s.q.conf.rngsz
    rw [hcnt]
    exact h.pidx
  · show s.q.regs.pidx = (bufCnt s.q (s.sent ++ [c]) r - 1 + s.q.conf.rngsz - 1) % s.q.conf.rngsz
    rw [hcnt]
    exact h.bell
  · show adv s.q.conf.rngsz s.bufPidx bs.length
      = (allBufs s.q.conf.c2hBufsz (s.sent ++ [c])).length % s.q.conf.rngsz
    rw [hall, List.length_append, h.bufPidx, adv_mod]
  · show bufCnt s.q (s.sent ++ [c]) r = 0 → _
    rw [hcnt]
    exact h.unused

/-! ## The queue just started -/

/-- What a fill loop leaves in the slots it went through. -/
theorem flqFillFrom_pages {fill : ℕ → FillOutcome} {n i : ℕ} {d : Descq}
    (hok : (flqFillFrom fill n i d).2 = 0) :
    (∀ k < i, (flqFillFrom fill n i d).1.flq.sdesc k = d.flq.sdesc k ∧
      (flqFillFrom fill n i d).1.desc.slot k = d.desc.slot k) ∧
    ∀ k, i ≤ k → k < i + n → ((flqFillFrom fill n i d).1.flq.sdesc k).pg ≠ none ∧
      ((flqFillFrom fill n i d).1.desc.slot k).dstAddr
        = ((flqFillFrom fill n i d).1.flq.sdesc k).dmaAddr := by
  induction n generalizing i d with
  | zero => exact ⟨fun _ _ => ⟨rfl, rfl⟩, fun k h1 h2 => by omega⟩
  | succ n ih =>
      rw [flqFillFrom] at hok ⊢
      cases hf : fill i with
      | noMem =>
          rw [hf] at hok
          exact absurd hok (show enomem ≠ 0 by decide)
      | mapErr =>
          rw [hf] at hok
          exact absurd hok (show einval ≠ 0 by decide)
      | ok pg addr =>
          rw [hf] at hok
          simp only at hok ⊢
          rw [if_neg (show ¬ (flqFillOne d i (.ok pg addr)).2 < 0 from lt_irrefl 0)] at hok ⊢
          -- the slots before the next are left alone by the rest of the loop
          obtain ⟨hbelow, hin⟩ := ih hok
          have hother : ∀ k ≠ i, (flqFillOne d i (.ok pg addr)).1.flq.sdesc k = d.flq.sdesc k ∧
              (flqFillOne d i (.ok pg addr)).1.desc.slot k = d.desc.slot k :=
            fun k hk => ⟨Function.update_of_ne hk _ _, Function.update_of_ne hk _ _⟩
          refine ⟨fun k hk => ?_, fun k h1 h2 => ?_⟩
          · obtain ⟨b1, b2⟩ := hbelow k (by omega)
            obtain ⟨o1, o2⟩ := hother k (by omega)
            exact ⟨b1.trans o1, b2.trans o2⟩
          · rcases Nat.eq_or_lt_of_le h1 with heq | hlt
            · obtain ⟨b1, b2⟩ := hbelow k (by omega)
              rw [b1, b2, ← heq]
              have hs : (flqFillOne d i (.ok pg addr)).1.flq.sdesc i
                  = { pg := some pg, dmaAddr := addr, len := d.flq.fullLen, offset := 0 } :=
                Function.update_self _ _ _
              have hd : (flqFillOne d i (.ok pg addr)).1.desc.slot i
                  = { d.desc.slot i with dstAddr := addr } := Function.update_self _ _ _
              rw [hs, hd]
              exact ⟨Option.some_ne_none pg, rfl⟩
            · exact hin k hlt (by omega)

/-- The slot has a page, and the descriptor its address. -/
def Descq.HasPage (d : Descq) (k : ℕ) : Prop :=
  (d.flq.sdesc k).pg ≠ none ∧ (d.desc.slot k).dstAddr = (d.flq.sdesc k).dmaAddr

theorem flqAllocResource_pages {d : Descq} {sd : Bool} {fill : ℕ → FillOutcome}
    (hok : (descqFlqAllocResource d sd fill).2 = 0) {k : ℕ} (hk : k < d.flq.size) :
    (descqFlqAllocResource d sd fill).1.HasPage k := by
  unfold descqFlqAllocResource at hok ⊢
  cases sd with
  | false => exact absurd hok (show enomem ≠ 0 by decide)
  | true =>
      simp only [if_true] at hok ⊢
      set d1 : Descq := { d with
        flq := { d.flq with sdescAlloc := true, sdesc := fun _ => {}, sdescInfo := fun _ => {} } }
      rcases flqFillFrom_rv fill d1.flq.size 0 d1 with h0 | hneg
      · rw [h0, if_neg (lt_irrefl _)]
        exact (flqFillFrom_pages h0).2 k (Nat.zero_le _) (by rw [Nat.zero_add]; exact hk)
      · rw [if_pos hneg] at hok
        exact absurd hok hneg.ne

theorem allocResource_pages {d : Descq} {env : AllocEnv} {irq : Option ℕ}
    (hkind : (d.conf.st && d.conf.c2h) = true)
    (hok : (qdmaDescqAllocResource d env irq).2 = 0) {k : ℕ} (hk : k < d.conf.rngsz) :
    (qdmaDescqAllocResource d env irq).1.HasPage k := by
  have hk' : ((descRingAlloc d).conf.st && (descRingAlloc d).conf.c2h) = true := hkind
  have hneg : qdmaErrOutOfMemory ≠ 0 := by decide
  revert hok
  unfold qdmaDescqAllocResource
  cases env.desc with
  | false => exact fun h => absurd h hneg
  | true =>
      simp only [if_true, hk']
      cases env.wrb with
      | false =>
          intro h
          simp only [Bool.false_eq_true, if_false] at h
          rw [if_pos (show qdmaErrOutOfMemory < 0 by decide)] at h
          exact absurd h hneg
      | true =>
          simp only [if_true]
          set d1 : Descq := { wrbRingAlloc (descRingAlloc d) with
            descWrb := { alloc := true }
            descWrbCur := 0 } with hd1
          intro h
          split_ifs at h with hrv
          · exact absurd h hneg
          · rw [if_neg hrv]
            exact flqAllocResource_pages
              ((flqAllocResource_rv d1 env.sdesc env.fill).resolve_right hrv) hk

/-- All receive buffers of a queue just started have a page. -/
theorem StartedC2h.pages {q : Descq} (h : StartedC2h q) {k : ℕ} (hk : k < q.conf.rngsz) :
    q.HasPage k := by
  obtain ⟨d, env, csr, _, hcsr, -, -, -, -, -, hkind, -, -, -, -, -, hok, rfl⟩ := h
  obtain ⟨slot, sdesc, intrId, hst, -⟩ := startC2h_eq hcsr hkind hok
  obtain ⟨-, -, -, heq⟩ := descqStart_ok hcsr hok
  have hrng : (descqStart d env).1.conf.rngsz = (qdmaDescqConfigComplete d csr).conf.rngsz := by
    rw [hst]
    unfold qdmaDescqConfigComplete
    simp only
    split_ifs <;> rfl
  rw [hrng] at hk
  rw [heq] at hok ⊢
  obtain ⟨ha, hp, hup⟩ := descqBringUp_ok hok
  have hkind' : ((qdmaDescqConfigComplete d csr).markInited.conf.st &&
      (qdmaDescqConfigComplete d csr).markInited.conf.c2h) = true := by
    unfold qdmaDescqConfigComplete
    simp only
    split_ifs <;> exact hkind
  have hpage := allocResource_pages hkind' ha hk
  have hprog : ∀ d ctx, ((qdmaDescqProgHw d ctx).1.markOnline).HasPage k ↔ d.HasPage k := by
    intro d ctx
    cases ctx with
    | ok =>
        unfold qdmaDescqProgHw
        simp only
        split_ifs <;> exact Iff.rfl
    | fail valid => exact Iff.rfl
  rw [hup]
  exact (hprog _ _).mpr hpage

/-- **A queue with handler just started.** -/
theorem StartedC2h.upLaw {q : Descq} (h : StartedC2h q)
    (hsome : q.conf.fpDescqC2hPacket.isSome) : UpLaw { q := q } 0 := by
  have hup := h.upInv hsome
  obtain ⟨d, env, csr, k, hcsr, hlo, hhi, hbuf, hk, hk', hkind, -, hflq, -, -, -, hok, rfl⟩ := h
  obtain ⟨slot, sdesc, intrId, heq, -⟩ := startC2h_eq hcsr hkind hok
  rw [heq] at hup ⊢
  set n := u32Sub (csr.ringSz d.conf.descRngSzIdx) 1 with hn
  have hn' : n = csr.ringSz d.conf.descRngSzIdx - 1 := u32Sub_of_le (by omega) (by omega)
  have hav : u32Sub n 1 = n - 1 := u32Sub_of_le (by omega) (by omega)
  set q : Descq := { ((startConf d csr).withRings slot sdesc).up with intrId := intrId } with hq
  have hrng : q.conf.rngsz = n := rfl
  have hf := fullLen_fresh (startConf d csr).flq n sdesc hk hk'
  rw [← hbuf] at hf
  have hB : q.conf.c2hBufsz = 2 ^ k := hbuf
  have hpend : q.flq.pidxPend = 0 := by
    show d.flq.pidxPend = 0
    rw [hflq]
  have hn1 : 1 ≤ n := by omega
  have hn2 : n ≤ 65535 := by omega
  refine ⟨hup, ⟨⟨hn1, hn2, rfl, hf.1.le.trans hk', ?_⟩, ?_, ?_, ?_, ?_⟩, ?_, ?_, ?_, ?_⟩
  · rw [hB]
    exact congrArg _ hf.1.symm
  · exact hpend.trans (Nat.zero_mod _).symm
  · show u32Sub n 1 + 0 = n - 1 + 0
    rw [hav]
  · exact Nat.zero_le _
  · show 0 < 0 + n
    omega
  · exact (Nat.zero_mod _).symm
  · show u32Sub n 1 = (0 + n - 1) % n
    rw [hav, Nat.zero_add, Nat.mod_eq_of_lt (by omega)]
  · exact (Nat.zero_mod _).symm
  · exact fun _ => ⟨rfl, rfl⟩

/-! ## Runs -/

/-- The device's slots, from the law. -/
theorem UpLaw.exposed {s : Rx} {r : ℕ} (h : UpLaw s r) :
    exposedSlots s.q = (List.range (bufCnt s.q s.sent r - 1 + s.q.conf.rngsz - 1
      - bufCnt s.q s.sent r)).map (fun k => (bufCnt s.q s.sent r + k) % s.q.conf.rngsz) := by
  have hroom := h.bufs.room
  have hT := bufCnt_le s.q s.sent r
  unfold exposedSlots
  rw [h.pidx, h.bell, stretch_mod _ (by omega) (by omega)]
  rfl

/-- **The law of lent buffers.** -/
def UxInv (u : Ux) : Prop :=
  ∃ r, UpLaw u.c.s r ∧ u.c.s.q.err = false ∧
    Kept u.c.s.q u.lent (bufCnt u.c.s.q u.c.s.sent r) (bufCnt u.c.s.q u.c.s.sent r - 1)

/-- The law says what `SlotsHeld` says. -/
theorem UxInv.held {u : Ux} (h : UxInv u) : SlotsHeld u := by
  obtain ⟨r, hlaw, -, hkept⟩ := h
  have hT := bufCnt_le u.c.s.q u.c.s.sent r
  have hroom := hlaw.bufs.room
  have hav := hlaw.bufs.avail
  refine ⟨fun i hi => ?_, ?_⟩
  · rw [hlaw.exposed] at hi
    obtain ⟨k, hk, rfl⟩ := List.mem_map.mp hi
    rw [List.mem_range] at hk
    exact hkept _ (Nat.le_add_right _ _) (by omega)
  · rw [hlaw.exposed, List.length_map, List.length_range]
    omega

/-- **Step lemma.** -/
theorem UxInv.step {u : Ux} (h : UxInv u) {l : CxLabel} (hl : CxLegal u.c l) (hs : l.Succeeds) :
    UxInv (u.step l) := by
  obtain ⟨r, hlaw, herr, hkept⟩ := h
  cases l with
  | upper budget fill fp =>
      obtain ⟨hfp, hfill⟩ := hs
      obtain ⟨hlaw', hkept'⟩ := (hlaw.withHandler fp).service herr budget ⟨fp, rfl, hfp⟩
        (fun i => (hfill i).1) u.lent
      obtain ⟨_, -, -, -, hkeep, -⟩ := (hlaw.up.withHandler fp).service budget fill
      refine ⟨_, hlaw', hkeep.err.trans herr, ?_⟩
      show Kept _ _
        (bufCnt ((u.c.s.withHandler fp).step (.service budget fill)).q u.c.s.sent _)
        (bufCnt ((u.c.s.withHandler fp).step (.service budget fill)).q u.c.s.sent _ - 1)
      rw [bufCnt_congr hkeep.conf]
      exact hkept' (fun i => (hfill i).2) (fun j h1 h2 =>
        ⟨(hkept j h1 h2).1.congr rfl rfl rfl, (hkept j h1 h2).2⟩)
  | rx l =>
      obtain ⟨hlegal, hside⟩ := hl
      have hdev : l.Device := by
        refine hside.resolve_right (fun hnone => ?_)
        rw [← Option.not_isSome, hlaw.up.handler] at hnone
        exact absurd hnone (by decide)
      cases l with
      | dma word payload =>
          refine ⟨r, hlaw.dma hlegal, herr, ?_⟩
          show Kept _ u.lent (bufCnt u.c.s.q (u.c.s.sent ++ [_]) r)
            (bufCnt u.c.s.q (u.c.s.sent ++ [_]) r - 1)
          rw [bufCnt_append _ hlaw.up.ring.le]
          intro j h1 h2
          obtain ⟨hp, hlent⟩ := hkept j h1 h2
          obtain ⟨p1, p2⟩ := land_pages u.c.s.q u.c.s.bufPidx
            (Cmpl.bufs u.c.s.q.conf.c2hBufsz
              { word := word, payload := payload, seq := u.c.s.sent.length + 1 })
            (j % u.c.s.q.conf.rngsz)
          exact ⟨hp.congr p1 p2 rfl, hlent⟩
      | publish p =>
          exact ⟨r, hlaw.publish hlegal, herr, fun j h1 h2 =>
            ⟨(hkept j h1 h2).1.congr rfl rfl rfl, (hkept j h1 h2).2⟩⟩
      | submit | pend | wait | packetRead | service => exact absurd hdev id

/-- **The device is given no empty slot** in a run in which the handler refuses no packet and
every refill succeeds. -/
theorem exposed_slots_held {q : Descq} (h : StartedC2h q)
    (hup : q.conf.fpDescqC2hPacket.isSome)
    (hmapped : ∀ k < q.conf.rngsz, (q.flq.sdesc k).dmaAddr ≠ 0) {evs : List CxLabel} {u : Ux}
    (hrun : Run Ux.step (fun u l => CxLegal u.c l ∧ l.Succeeds) { c := { s := { q := q } } } evs u) :
    SlotsHeld u := by
  have hinit : UxInv { c := { s := { q := q } } } := by
    refine ⟨0, h.upLaw hup, h.err, fun j _ _ => ⟨?_, rfl⟩⟩
    have hj : j % q.conf.rngsz < q.conf.rngsz := Nat.mod_lt _ (h.upLaw hup).bufs.sizes.pos
    obtain ⟨hpg, haddr⟩ := h.pages hj
    exact ⟨hpg, hmapped _ hj, haddr⟩
  exact (hrun.invariant (I := UxInv) hinit (fun _ _ hi hl => hi.step hl.1 hl.2)).held

/-! ## Concrete runs -/

/-- A card-to-host queue with a packet handler that takes everything. -/
def addedUp : Descq :=
  { enabled := true, conf := { st := true, c2h := true, fpDescqC2hPacket := some (fun _ => 0) } }

/-- The same queue just started on a ring of CSR size 4, with buffers of a page. -/
def startedUp : Rx := { q := (descqStart addedUp (goodStart (csrOf 4))).1 }

theorem startedUp_startedC2h : StartedC2h startedUp.q :=
  ⟨addedUp, goodStart (csrOf 4), csrOf 4, 12, rfl, by decide, by decide, by decide, by decide,
    by decide, rfl, rfl, rfl, rfl, rfl, rfl, by decide +kernel, rfl⟩

/-- The device writes a packet of 4 bytes, and the call that services it refills as `fill`
says. -/
def onePacket (pidx : ℕ) (fill : ℕ → FillOutcome) : List CxLabel :=
  [.rx (.dma (cmplWord true 4) [1, 2, 3, 4]), .rx (.publish pidx), .upper 0 fill (fun _ => 0)]

/-- Pages at the addresses from 16 pages on. -/
def newPages (i : ℕ) : FillOutcome := .ok (i + 16) ((i + 16) * pageSize)

theorem newPages_ok (i : ℕ) : (newPages i).isOk = true ∧ (newPages i).addr ≠ 0 := by
  refine ⟨rfl, ?_⟩
  show (i + 16) * 4096 ≠ 0
  omega

theorem onePacket_succeeds {fill : ℕ → FillOutcome}
    (hfill : ∀ i, (fill i).isOk = true ∧ (fill i).addr ≠ 0) (pidx : ℕ) :
    ∀ l ∈ onePacket pidx fill, l.Succeeds := by
  intro l hl
  simp only [onePacket, List.mem_cons, List.not_mem_nil, or_false] at hl
  rcases hl with rfl | rfl | rfl
  · trivial
  · trivial
  · exact ⟨fun _ _ => le_rfl, hfill⟩

/-- Two packets, with pages for both. -/
theorem exposed_slots_held_two :
    let u := (onePacket 1 newPages ++ onePacket 2 newPages).foldl Ux.step { c := { s := startedUp } }
    exposedSlots u.c.s.q = [2] ∧ SlotsHeld u := by
  intro u
  have hrun : Run Ux.step (fun u l => CxLegal u.c l) { c := { s := startedUp } }
      (onePacket 1 newPages ++ onePacket 2 newPages) u := Run.of_admits _ (by decide +kernel)
  refine ⟨by decide +kernel, exposed_slots_held startedUp_startedC2h (by decide +kernel)
    (by decide +kernel) (Run.and hrun ?_)⟩
  intro l hl
  rcases List.mem_append.mp hl with hl | hl
  · exact onePacket_succeeds newPages_ok 1 l hl
  · exact onePacket_succeeds newPages_ok 2 l hl

/-- **An empty slot is exposed.**  The refill for the second packet finds no memory; the
doorbell of the third one gives the device the slot that refill had unmapped. -/
theorem empty_slot_exposed :
    let evs := onePacket 1 newPages ++ onePacket 2 (fun _ => .noMem) ++ onePacket 0 newPages
    let u := evs.foldl Ux.step { c := { s := startedUp } }
    Run Ux.step (fun u l => CxLegal u.c l) { c := { s := startedUp } } evs u ∧
      exposedSlots u.c.s.q = [0] ∧ (u.c.s.q.desc.slot 0).dstAddr = 0 ∧ ¬ SlotsHeld u := by
  intro evs u
  have hexp : exposedSlots u.c.s.q = [0] := by decide +kernel
  have haddr : (u.c.s.q.desc.slot 0).dstAddr = 0 := by decide +kernel
  refine ⟨Run.of_admits _ (by decide +kernel), hexp, haddr, fun h => ?_⟩
  have hslot := (h.posted 0 (by rw [hexp]; exact List.mem_singleton_self 0)).1
  exact hslot.mapped (hslot.addr.symm.trans haddr)

end Qdma
