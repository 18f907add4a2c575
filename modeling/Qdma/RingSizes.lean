/-
# The sizes of the rings

`qdma_descq_config_complete` takes one from a CSR word for the size of the rings, and one more for
the descriptors that can be used; `desc_ring_alloc` multiplies in 32 bits.  Nobody looks at the
word, so that a start can succeed with a ring that wraps to a few bytes or has no usable slot.  Nor
does anybody compare the size of the receive buffers with the power of two the driver takes for it.

`ring_sizes_iff` gives the words for which a start that succeeds leaves a queue that can be used,
with every index it reaches within what is allocated: ring sizes from 3 to 65536, and for an ST C2H
queue buffers that agree well enough with the driver's (`BufsAgree`).
-/
import Qdma.RxOverrun
import Qdma.RingRun
import Qdma.QueueRun

namespace Qdma

open RingIndex Exec

/-! ## What is allocated -/

/-- Entry `i` of a ring lies in what `desc_ring_alloc` has allocated for it, before the status. -/
def InRing (ringSz descSz i : ℕ) : Prop :=
  (i + 1) * descSz + statusSize ≤ descRingLen ringSz descSz statusSize

/-- `sizeof(struct qdma_sw_sg) + sizeof(struct qdma_sdesc_info)`, for each slot of a free list. -/
def flqSlotSize : ℕ := 32 + 16

/-- The indices of a memory-mapped or ST H2C queue are within its ring. -/
structure TxInRing (q : Descq) : Prop where
  pidx : InRing q.conf.rngsz (getDescSize q.conf) q.pidx
  cidx : InRing q.conf.rngsz (getDescSize q.conf) q.cidx
  wbCidx : InRing q.conf.rngsz (getDescSize q.conf) q.desc.wbCidx
  bell : InRing q.conf.rngsz (getDescSize q.conf) q.regs.pidx

/-- Those of an ST C2H queue are within its two rings and its free list. -/
structure RxInRing (q : Descq) : Prop where
  pidx : InRing q.conf.rngsz (getDescSize q.conf) q.pidx
  bell : InRing q.conf.rngsz (getDescSize q.conf) q.regs.pidx
  pend : InRing q.conf.rngsz (getDescSize q.conf) q.flq.pidxPend
  slots : q.pidx < q.flq.size ∧ q.flq.pidxPend < q.flq.size
  cidxWrb : InRing q.conf.rngszWrb q.wbEntryLen q.cidxWrb
  pidxWrb : InRing q.conf.rngszWrb q.wbEntryLen q.pidxWrb
  wrbPend : InRing q.conf.rngszWrb q.wbEntryLen q.cidxWrbPend
  wrbBell : InRing q.conf.rngszWrb q.wbEntryLen q.regs.wrbCidx
  cur : q.descWrbCur + q.wbEntryLen + statusSize
    ≤ descRingLen q.conf.rngszWrb q.wbEntryLen statusSize

/-- **The rings of a queue just started can be used**: some descriptors are free, the indices have
16 bits, no length overflows an `int`, and no run takes an index out of what is allocated. -/
structure RingSizesOk (q : Descq) : Prop where
  avail_pos : 1 ≤ q.avail
  avail_lt : q.avail < q.conf.rngsz
  rngsz : q.conf.rngsz ≤ 65535
  rngszWrb : q.conf.rngszWrb ≤ 65535
  descLen : q.conf.rngsz * getDescSize q.conf + statusSize < 2 ^ 31
  cmplLen : q.isRx = true → q.conf.rngszWrb * q.wbEntryLen + statusSize < 2 ^ 31
  flqLen : q.isRx = true → q.flq.size * flqSlotSize < 2 ^ 31
  tx : q.isRx = false → ∀ evs s, Run Sys.step Legal { q := q } evs s → TxInRing s.q
  rx : q.isRx = true → ∀ evs c, Run Ix.step IxLegal { s := { q := q } } evs c →
    RxInRing c.s.q ∧ ∀ i ∈ c.used, i < c.s.q.flq.size

/-- **A start of a queue succeeds.**  The CSR registers have 32 bits, `cmpl_desc_sz` has two; a
queue that is not started has an empty free list, and the kernel gives pages of its orders only. -/
structure RingStarts (d : Descq) (env : StartEnv) (csr : GlobalCsrConf) : Prop where
  tables : env.csr = some csr
  words : csr.Words
  entrySize : d.conf.cmplDescSz < 4
  flq : d.flq = {}
  pages : d.isRx = true → ∀ i pg addr, env.alloc.fill i = .ok pg addr →
    pgOrderOf (csr.c2hBufSz d.conf.c2hBufSzIdx) < maxOrder
  ok : (descqStart d env).2 = 0

/-- **The receive buffers agree well enough** for a ring of CSR size `r`: the longest packet that
the device can put into all slots but one of the ring, with buffers of `bufsz` bytes, comes to at
most `r` buffers of the driver, which takes the power of two below `bufsz`. -/
def BufsAgree (r bufsz : ℕ) : Prop := min 65535 ((r - 2) * bufsz) ≤ r * 2 ^ bufsz.log2

/-- **The CSR words a queue can be started with.** -/
structure RingFits (d : Descq) (csr : GlobalCsrConf) : Prop where
  lo : 3 ≤ csr.ringSz d.conf.descRngSzIdx
  hi : csr.ringSz d.conf.descRngSzIdx ≤ 65536
  bufs : d.isRx = true →
    BufsAgree (csr.ringSz d.conf.descRngSzIdx) (csr.c2hBufSz d.conf.c2hBufSzIdx)

/-- An ST C2H queue is neither halted nor asked for anything. -/
def Descq.Quiet (d : Descq) : Prop := d.isRx = true → d.err = false ∧ d.pendList = []

/-! ## Within a ring -/

/-- An index below the size is within what is allocated. -/
theorem inRing_of_lt {n sz i : ℕ} (hn : n ≤ 65535) (hsz : sz ≤ 32) (hi : i < n) :
    InRing n sz i := by
  have hlen : n * sz ≤ 65535 * 32 := Nat.mul_le_mul hn hsz
  have hmul : (i + 1) * sz ≤ n * sz := Nat.mul_le_mul_right sz hi
  unfold InRing descRingLen statusSize
  rw [u32_of_lt (by omega)]
  omega

theorem getDescSize_le (conf : QueueConf) : getDescSize conf ≤ 32 := by
  unfold getDescSize
  split_ifs <;> decide

/-- The ring law keeps the indices within the ring. -/
theorem RingInv.inRing {q : Descq} (h : RingInv q) : TxInRing q := by
  have hsz := getDescSize_le q.conf
  refine ⟨inRing_of_lt h.le_max hsz h.pidx_lt, inRing_of_lt h.le_max hsz h.cidx_lt,
    inRing_of_lt h.le_max hsz h.wb_lt, inRing_of_lt h.le_max hsz ?_⟩
  rw [h.rung]
  exact h.pidx_lt

/-- So does the law of an ST C2H queue. -/
theorem RxOnRing.inRing {q : Descq} (h : RxOnRing q) : RxInRing q := by
  have hlen := h.entryLen
  have hsz := getDescSize_le q.conf
  have hcidx := inRing_of_lt h.rngszWrb hlen h.cidxWrb
  refine ⟨inRing_of_lt h.rngsz hsz h.pidx, inRing_of_lt h.rngsz hsz h.bell,
    inRing_of_lt h.rngsz hsz h.pend, ?_, hcidx, inRing_of_lt h.rngszWrb hlen h.pidxWrb,
    inRing_of_lt h.rngszWrb hlen h.wrbPend, inRing_of_lt h.rngszWrb hlen h.wrbBell, ?_⟩
  · rw [h.size]
    exact ⟨h.pidx, h.pend⟩
  · unfold InRing at hcidx
    rw [Nat.add_mul, Nat.one_mul] at hcidx
    rw [h.cur]
    exact hcidx

/-! ## The start -/

section Start

variable {d : Descq} {env : StartEnv} {csr : GlobalCsrConf}

/-- The sizes of a queue just started. -/
theorem RingStarts.sizes (h : RingStarts d env csr) :
    (descqStart d env).1.isRx = d.isRx ∧
      (descqStart d env).1.conf.rngsz = u32Sub (csr.ringSz d.conf.descRngSzIdx) 1 ∧
      (descqStart d env).1.conf.rngszWrb = u32Sub (csr.ringSz d.conf.descRngSzIdx) 1 ∧
      (descqStart d env).1.avail = u32Sub (u32Sub (csr.ringSz d.conf.descRngSzIdx) 1) 1 := by
  cases hkind : (d.conf.st && d.conf.c2h) with
  | false =>
      rw [descqStart_eq h.tables hkind h.ok]
      exact ⟨rfl, rfl, rfl, rfl⟩
  | true =>
      obtain ⟨slot, sdesc, intrId, heq, -⟩ := startC2h_eq h.tables hkind h.ok
      rw [heq]
      exact ⟨rfl, rfl, rfl, rfl⟩

/-- The entries of its completion ring have at most 32 bytes. -/
theorem RingStarts.entryLen (h : RingStarts d env csr) (hrx : d.isRx = true) :
    (descqStart d env).1.wbEntryLen ≤ 32 := by
  obtain ⟨slot, sdesc, intrId, heq, -⟩ := startC2h_eq h.tables hrx h.ok
  have hsz := h.entrySize
  have hcmpl : (startConf d csr).conf.cmplDescSz ≤ 2 := by
    show (if d.conf.cmplDescSz = descSzRsv then 0 else d.conf.cmplDescSz) ≤ 2
    unfold descSzRsv
    split_ifs
    · exact Nat.zero_le _
    · omega
  rw [heq]
  show 8 <<< (startConf d csr).conf.cmplDescSz ≤ 32
  rw [Nat.shiftLeft_eq]
  exact Nat.mul_le_mul_left 8 (Nat.pow_le_pow_right (by decide) hcmpl)

/-- Its buffers have a size. -/
theorem RingStarts.bufsz_ne (h : RingStarts d env csr) (hrx : d.isRx = true)
    (hlo : 3 ≤ csr.ringSz d.conf.descRngSzIdx) : csr.c2hBufSz d.conf.c2hBufSzIdx ≠ 0 := by
  have hn : u32Sub (csr.ringSz d.conf.descRngSzIdx) 1 ≠ 0 := by
    have hword := (h.words d.conf.descRngSzIdx).1
    rw [u32Sub_of_le hword (by omega)]
    omega
  have hrxs : RxStarts d env csr := ⟨h.tables, hrx, (h.words _).2, h.pages hrx, hn, h.ok⟩
  exact ((pgOrderOf_lt_iff hrxs.word).mp hrxs.order).1

/-- An ST C2H queue just started: its sizes, and every index at the start of its ring. -/
structure RxFresh (d q : Descq) (n bufsz : ℕ) : Prop where
  shape : Shape q n bufsz bufsz.log2 d.conf.fpDescqC2hPacket.isSome
  ring : RxOnRing q
  idle : d.err = false → d.pendList = [] → Idle q

theorem RingStarts.fresh (h : RingStarts d env csr) (hrx : d.isRx = true)
    (hlo : 3 ≤ csr.ringSz d.conf.descRngSzIdx) (hhi : csr.ringSz d.conf.descRngSzIdx ≤ 65536) :
    RxFresh d (descqStart d env).1 (csr.ringSz d.conf.descRngSzIdx - 1)
      (csr.c2hBufSz d.conf.c2hBufSzIdx) := by
  have hn : u32Sub (csr.ringSz d.conf.descRngSzIdx) 1 = csr.ringSz d.conf.descRngSzIdx - 1 :=
    u32Sub_of_le (by omega) (by omega)
  have hrxs : RxStarts d env csr :=
    ⟨h.tables, hrx, (h.words _).2, h.pages hrx, by omega, h.ok⟩
  obtain ⟨h0, hlog, hlog'⟩ := (pgOrderOf_lt_iff hrxs.word).mp hrxs.order
  have hshift : (descqStart d env).1.flq.pgShift = (csr.c2hBufSz d.conf.c2hBufSzIdx).log2 := by
    rw [hrxs.flq.2.1, show fls (csr.c2hBufSz d.conf.c2hBufSzIdx) = _ from if_neg h0]
    omega
  obtain ⟨slot, sdesc, intrId, heq, -⟩ := startC2h_eq h.tables hrx h.ok
  have hlen := h.entryLen hrx
  rw [heq] at hlen hshift ⊢
  have hav : u32Sub (u32Sub (csr.ringSz d.conf.descRngSzIdx) 1) 1
      < u32Sub (csr.ringSz d.conf.descRngSzIdx) 1 :=
    (u32Sub_of_le (by omega) (by omega)).trans_lt (Nat.sub_lt (by omega) Nat.one_pos)
  have hpos : 0 < u32Sub (csr.ringSz d.conf.descRngSzIdx) 1 := by omega
  have hmax : u32Sub (csr.ringSz d.conf.descRngSzIdx) 1 ≤ 65535 := by omega
  have hpend : d.flq.pidxPend = 0 := by rw [h.flq]
  refine ⟨⟨hn, hn, rfl, hshift, hn, rfl⟩, ?_, ?_⟩
  · refine ⟨hmax, hmax, rfl, hpos, ?_, hav, hpos, hpos, hpos, hpos, (Nat.zero_mul _).symm,
      fun _ => hpos, hpos, fun o => ?_, ?_, hlen⟩
    · exact hpend.trans_lt hpos
    -- an entry not written yet is one of length zero
    · show u32Sub (flNr _ (cmplInfo 0).len) 1 ≤ _
      rw [show (cmplInfo 0).len = 0 by decide, flNr_zero_sub]
      exact Nat.zero_le _
    · omega
  · intro herr hlist
    refine ⟨⟨herr, rfl, rfl, hpend, rfl, ?_⟩, rfl, hlist⟩
    show u32Sub (u32Sub (csr.ringSz d.conf.descRngSzIdx) 1) 1
      = ringIdxDecr 0 1 (u32Sub (csr.ringSz d.conf.descRngSzIdx) 1)
    rfl

/-! ## The receive buffers -/

/-- A packet takes at most `m` buffers exactly if it is not longer than they are. -/
theorem pktNr_le_iff {full len m : ℕ} (hf : 0 < full) (hm : 1 ≤ m) :
    pktNr full len ≤ m ↔ len ≤ m * full := by
  unfold pktNr
  split_ifs with h0
  · rw [h0]
    exact ⟨fun _ => Nat.zero_le _, fun _ => hm⟩
  · rw [Nat.div_le_iff_le_mul_add_pred hf]
    have hcomm := Nat.mul_comm full m
    omega

section Agree

variable {q : Descq} {n bufsz : ℕ} {up : Bool}

/-- Buffers that agree well enough keep every count within a lap and one. -/
theorem BufsAgree.rxAgree (h : BufsAgree (n + 1) bufsz) (hn : 2 ≤ n) (hsz : bufsz ≠ 0)
    (hshape : Shape q n bufsz bufsz.log2 up) (hs : q.flq.pgShift ≤ 31) : RxAgree q := by
  intro len hlen hlt
  have hpos := Nat.two_pow_pos bufsz.log2
  rw [hshape.bufsz, hshape.rngsz] at hlt
  have hfit : len ≤ (n - 1) * bufsz := (pktNr_le_iff (by omega) (by omega)).mp (by omega)
  have hagree : len ≤ (n + 1) * 2 ^ bufsz.log2 := (Nat.le_min.mpr ⟨hlen, hfit⟩).trans h
  have hnr : pktNr (2 ^ bufsz.log2) len ≤ n + 1 := (pktNr_le_iff hpos (by omega)).mpr hagree
  have hmax := pktNr_le_max hpos hlen
  rw [flNr_eq hs hlen, hshape.shift, hshape.rngsz,
    u32Sub_of_le (by omega) (pktNr_pos hpos len)]
  omega

/-- Others leave the ring in some run. -/
theorem overruns_of_not_agree (h : ¬ BufsAgree (n + 1) bufsz) (hn : 2 ≤ n) (hsz : bufsz ≠ 0)
    (hshape : Shape q n bufsz bufsz.log2 up) (hon : RxOnRing q) (hidle : Idle q) :
    ∃ evs c, Run Ix.step IxLegal { s := { q := q } } evs c ∧
      ∃ i ∈ c.used, c.s.q.flq.size ≤ i := by
  have hpos := Nat.two_pow_pos bufsz.log2
  have hlo : 2 ^ bufsz.log2 ≤ bufsz := Nat.log2_self_le hsz
  have hhi : bufsz < 2 * 2 ^ bufsz.log2 := by
    rw [← Nat.pow_succ']
    exact Nat.lt_log2_self
  have hlap : (n + 1) * 2 ^ bufsz.log2 < min 65535 ((n - 1) * bufsz) := Nat.lt_of_not_le h
  have hs := hon.shift
  rw [hshape.shift] at hs
  -- the longest packet
  generalize hlen : min 65535 ((n - 1) * bufsz) = len at hlap
  have hle : len ≤ 65535 := hlen ▸ Nat.min_le_left _ _
  have hfit : len ≤ (n - 1) * bufsz := hlen ▸ Nat.min_le_right _ _
  have hroom : pktNr bufsz len ≤ n - 1 := (pktNr_le_iff (by omega) (by omega)).mpr hfit
  have hnr : n + 2 ≤ flNr bufsz.log2 len := by
    rw [flNr_eq hs hle]
    by_contra hlt
    have hshort : len ≤ (n + 1) * 2 ^ bufsz.log2 :=
      (pktNr_le_iff hpos (by omega)).mp (Nat.le_of_lt_succ (Nat.lt_of_not_le hlt))
    exact absurd hlap (Nat.not_lt.mpr hshort)
  have hbuf : 2 ^ bufsz.log2 ≠ bufsz := by
    intro heq
    rw [heq] at hlap
    have hmul : (n - 1) * bufsz ≤ (n + 1) * bufsz := Nat.mul_le_mul_right _ (by omega)
    omega
  -- on two slots less than twice the driver's buffer never comes to three
  have hthree : n ≠ 2 := by
    rintro rfl
    omega
  refine rx_overruns hidle hshape hon (by omega) hle (by omega) hnr (by omega) ?_
  have hone : 1 * 2 ^ bufsz.log2 ≤ (n + 1) * 2 ^ bufsz.log2 := Nat.mul_le_mul_right _ (by omega)
  omega

end Agree

/-! ## Which sizes work -/

/-- **The ring sizes and buffers that work**: for every start that succeeds, whatever the kind of
the queue and its completion entries, sizes from 3 to 65536 whose buffers agree well enough; and
no others, as long as an ST C2H queue can be served. -/
theorem ring_sizes_iff (h : RingStarts d env csr) :
    (RingFits d csr → RingSizesOk (descqStart d env).1) ∧
      (d.Quiet → RingSizesOk (descqStart d env).1 → RingFits d csr) := by
  obtain ⟨hkind, hrng, hrngw, hav⟩ := h.sizes
  have hword := (h.words d.conf.descRngSzIdx).1
  constructor
  · rintro ⟨hlo, hhi, hbufs⟩
    -- neither subtraction wraps, and no length comes to 2^31
    have hn : u32Sub (csr.ringSz d.conf.descRngSzIdx) 1 = csr.ringSz d.conf.descRngSzIdx - 1 :=
      u32Sub_of_le (by omega) (by omega)
    have hn1 : u32Sub (u32Sub (csr.ringSz d.conf.descRngSzIdx) 1) 1
        = csr.ringSz d.conf.descRngSzIdx - 1 - 1 := by
      rw [u32Sub_of_le (by omega) (by omega), hn]
    have hlen : ∀ {n sz : ℕ}, n = csr.ringSz d.conf.descRngSzIdx - 1 → sz ≤ 32 →
        n * sz + statusSize < 2 ^ 31 := by
      intro n sz hn' hsz
      have hmul : n * sz ≤ 65535 * 32 := Nat.mul_le_mul (by omega) hsz
      unfold statusSize
      omega
    refine ⟨?_, ?_, ?_, ?_, hlen (hrng.trans hn) (getDescSize_le _), fun hrx => ?_, fun hrx => ?_,
      fun htx evs s hrun => ?_, fun hrx evs c hrun => ?_⟩
    · rw [hav, hn1]
      omega
    · rw [hav, hrng, hn1, hn]
      omega
    · rw [hrng, hn]
      omega
    · rw [hrngw, hn]
      omega
    · rw [hkind] at hrx
      exact hlen (hrngw.trans hn) (h.entryLen hrx)
    · rw [hkind] at hrx
      rw [(h.fresh hrx hlo hhi).ring.size, hrng, hn]
      unfold flqSlotSize
      omega
    -- the indices of a run: of the descriptor rings, then of the receive ring
    · rw [hkind] at htx
      exact (ringInv_run (ringInv_start h.tables (by omega) hhi htx h.ok) hrun).inRing
    · rw [hkind] at hrx
      have hfresh := h.fresh hrx hlo hhi
      have hagree := (show BufsAgree (csr.ringSz d.conf.descRngSzIdx - 1 + 1) _ by
        rw [Nat.sub_add_cancel (by omega)]
        exact hbufs hrx).rxAgree (by omega) (h.bufsz_ne hrx hlo) hfresh.shape hfresh.ring.shift
      have hinv := ixInv_run ⟨hfresh.ring, hagree, fun i hi => absurd hi List.not_mem_nil⟩ hrun
      exact ⟨hinv.ring.inRing, fun i hi => hinv.ring.size ▸ hinv.used i hi⟩
  -- the two subtractions leave `avail` in range for sizes from 3 on only
  · intro hquiet hok
    have h1 := hok.avail_pos
    have h2 := hok.avail_lt
    have h3 := hok.rngsz
    rw [hav] at h1 h2
    rw [hrng] at h2 h3
    unfold u32Sub at h1 h2 h3
    have hlo : 3 ≤ csr.ringSz d.conf.descRngSzIdx := by omega
    have hhi : csr.ringSz d.conf.descRngSzIdx ≤ 65536 := by omega
    refine ⟨hlo, hhi, fun hrx => ?_⟩
    have hfresh := h.fresh hrx hlo hhi
    by_contra hnot
    obtain ⟨evs, c, hrun, i, hi, hge⟩ := overruns_of_not_agree
      (by rwa [Nat.sub_add_cancel (by omega)]) (by omega) (h.bufsz_ne hrx hlo) hfresh.shape
      hfresh.ring (hfresh.idle (hquiet hrx).1 (hquiet hrx).2)
    exact absurd ((hok.rx (hkind.trans hrx) evs c hrun).2 i hi) (Nat.not_lt.mpr hge)

end Start

/-- CSR tables with rings of eight and one size of buffers. -/
def eightOf (bufsz : ℕ) : GlobalCsrConf where
  ringSz := fun _ => 8
  c2hBufSz := fun _ => bufsz

/-- A start of an ST C2H queue with them. -/
theorem addedC2h_starts {bufsz : ℕ} (h : bufsz < 2 ^ 32) (hord : pgOrderOf bufsz < maxOrder)
    (hok : (descqStart addedC2h (cleanStart (eightOf bufsz))).2 = 0) :
    RingStarts addedC2h (cleanStart (eightOf bufsz)) (eightOf bufsz) :=
  ⟨rfl, fun _ => ⟨(by decide : 8 < 2 ^ 32), h⟩, by decide, rfl, fun _ _ _ _ _ => hord, hok⟩

/-- On a ring of eight, buffers of a page work, and buffers of 8191 bytes do not: six of the seven
slots take 49146 bytes, which the driver counts as twelve buffers. -/
theorem ring_sizes_8191 :
    RingSizesOk (descqStart addedC2h (cleanStart (eightOf 4096))).1 ∧
      ¬ RingSizesOk (descqStart addedC2h (cleanStart (eightOf 8191))).1 :=
  ⟨(ring_sizes_iff (addedC2h_starts (by decide) (by decide) (by decide))).1
      ⟨by decide, by decide, fun _ => by unfold BufsAgree; decide⟩,
    fun hok => absurd ((ring_sizes_iff (addedC2h_starts (by decide) (by decide) (by decide))).2
      (fun _ => ⟨rfl, rfl⟩) hok).bufs (fun h => absurd (h rfl) (by unfold BufsAgree; decide))⟩

/-- A memory-mapped queue just added. -/
def addedMm : Descq where
  enabled := true

/-- CSR tables with rings of one size. -/
def ringsOf (n : ℕ) : GlobalCsrConf where
  ringSz := fun _ => n
  c2hBufSz := fun _ => 4096

/-- A start with them. -/
theorem addedMm_starts {n : ℕ} (hn : n < 2 ^ 32) :
    RingStarts addedMm (cleanStart (ringsOf n)) (ringsOf n) :=
  ⟨rfl, fun _ => ⟨hn, (by decide : 4096 < 2 ^ 32)⟩, by decide, rfl, nofun, rfl⟩

/-- **A ring size of `2 ^ 27 + 1`**: the start of a memory-mapped queue succeeds with a ring of
eight bytes, of which the driver uses `2 ^ 27` descriptors.  With a size of two no descriptor is
usable, and with one `avail` is `2 ^ 32 - 1`. -/
theorem ring_wraps :
    (RingStarts addedMm (cleanStart (ringsOf (2 ^ 27 + 1))) (ringsOf (2 ^ 27 + 1)) ∧
      (descqStart addedMm (cleanStart (ringsOf (2 ^ 27 + 1)))).1.conf.rngsz = 2 ^ 27 ∧
      descRingLen (2 ^ 27) (getDescSize addedMm.conf) statusSize = 8 ∧
      ¬ RingSizesOk (descqStart addedMm (cleanStart (ringsOf (2 ^ 27 + 1)))).1) ∧
    (RingStarts addedMm (cleanStart (ringsOf 2)) (ringsOf 2) ∧
      (descqStart addedMm (cleanStart (ringsOf 2))).1.avail = 0) ∧
    RingStarts addedMm (cleanStart (ringsOf 1)) (ringsOf 1) ∧
      (descqStart addedMm (cleanStart (ringsOf 1))).1.avail = 2 ^ 32 - 1 := by
  have hsz : (descqStart addedMm (cleanStart (ringsOf (2 ^ 27 + 1)))).1.conf.rngsz = 2 ^ 27 := by
    decide
  refine ⟨⟨addedMm_starts (by decide), hsz, by decide, fun h => ?_⟩,
    ⟨addedMm_starts (by decide), by decide⟩, addedMm_starts (by decide), by decide⟩
  have hmax := h.rngsz
  rw [hsz] at hmax
  exact absurd hmax (by decide)

end Qdma
