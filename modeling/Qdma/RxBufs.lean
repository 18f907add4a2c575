/-
# The size of the receive buffers

A CSR entry gives the size of the receive buffers of an ST C2H queue.  The device fills buffers
of exactly that size; the driver makes a shift of it with `fls`, from that the order of the pages
it allocates, and in `rcv_pkt` a mask, with which it counts the buffers of a packet.

`rx_bufs_iff` says for which sizes both come to the same: `fls` rounds down, so that the pages are
too small for all but the powers of two.
-/
import Qdma.Geometry
import Qdma.FreeListLaw
import Qdma.RxFrame

namespace Qdma

/-! ## Pages -/

/-- `MAX_ORDER`: `alloc_pages_node` has no pages of this order or above. -/
def maxOrder : ℕ := 11

/-- `pg_order` for a buffer size, an `unsigned char`. -/
def pgOrderOf (bufsz : ℕ) : ℕ := ((fls bufsz + 255) % 256 + 256 - pageShift) % 256

/-- **A start of an ST C2H queue succeeds.**  The kernel gives pages of its orders only, and a
ring has slots: without any, `descq_flq_alloc_resource` follows a null pointer. -/
structure RxStarts (d : Descq) (env : StartEnv) (csr : GlobalCsrConf) : Prop where
  tables : env.csr = some csr
  kind : (d.conf.st && d.conf.c2h) = true
  word : csr.c2hBufSz d.conf.c2hBufSzIdx < 2 ^ 32
  pages : ∀ i pg addr, env.alloc.fill i = .ok pg addr →
    pgOrderOf (csr.c2hBufSz d.conf.c2hBufSzIdx) < maxOrder
  slots : u32Sub (csr.ringSz d.conf.descRngSzIdx) 1 ≠ 0
  ok : (descqStart d env).2 = 0

/-- The order is one of the kernel's for sizes from a page to four megabytes. -/
theorem pgOrderOf_lt_iff {n : ℕ} (h : n < 2 ^ 32) :
    pgOrderOf n < maxOrder ↔ n ≠ 0 ∧ 12 ≤ n.log2 ∧ n.log2 ≤ 22 := by
  unfold pgOrderOf maxOrder fls pageShift
  by_cases h0 : n = 0
  · rw [if_pos h0]
    simp [h0]
  · have hlog : n.log2 < 32 := (Nat.log2_lt h0).mpr h
    rw [if_neg h0]
    omega

/-! ## Receiving a packet -/

/-- The queue has the configuration and the geometry of the free list of `q`, with other
descriptors, buffers and counters. -/
structure SameBufs (q d : Descq) : Prop where
  conf : d.conf = q.conf
  pgShift : d.flq.pgShift = q.flq.pgShift
  pgOrder : d.flq.pgOrder = q.flq.pgOrder

/-- Where a packet of `len` bytes that starts in slot `pidx` ends, in buffers of `size` bytes. -/
def hwLast (d : Descq) (pidx size len : ℕ) : ℕ :=
  ringIdxIncr pidx (pktNr size len - 1) d.conf.rngsz

/-- **What `rcv_pkt` charges** is what a device with buffers of `size` bytes has filled: so many
buffers, and in the last one what is left of the packet. -/
structure Charges (d : Descq) (cmpl : CmplInfo) (size len : ℕ) : Prop where
  slots : (rcvPkt d cmpl len).1.avail = u32Sub d.avail (pktNr size len)
  last : ((rcvPkt d cmpl len).1.flq.sdesc (hwLast d cmpl.pidx size len)).len
    = len - (pktNr size len - 1) * size

/-- **The receive buffers fit** buffers of `size` bytes: the pages are long enough and of an order
of the kernel, and in every state of the queue every packet is charged as the device has filled
it, its last buffer being whole when the device is given it. -/
structure RxBufsFit (q : Descq) (size : ℕ) : Prop where
  room : size ≤ q.flq.fullLen
  order : q.flq.pgOrder < maxOrder
  charges : ∀ d cmpl len, SameBufs q d → len ≤ 65535 →
    (d.flq.sdesc (hwLast d cmpl.pidx size len)).len = d.flq.fullLen → Charges d cmpl size len

/-- Keeping a packet changes no buffer. -/
theorem markLoop_sdesc (c n i : ℕ) (d : Descq) : (markLoop c n i d).flq.sdesc = d.flq.sdesc := by
  induction n generalizing i d with
  | zero => rfl
  | succ n ih => exact ih _ _

theorem markLoop_avail (c n i : ℕ) (d : Descq) : (markLoop c n i d).avail = d.avail := by
  induction n generalizing i d with
  | zero => rfl
  | succ n ih => exact ih _ _

/-- What `rcv_pkt` does to the buffers and their count, with a packet handler or without. -/
theorem rcvPkt_charge (d : Descq) (cmpl : CmplInfo) (len : ℕ) :
    (rcvPkt d cmpl len).1.avail = u32Sub d.avail (flNr d.flq.pgShift len) ∧
      (rcvPkt d cmpl len).1.flq.sdesc = (d.flq.setLastLen
        (ringIdxIncr cmpl.pidx (u32Sub (flNr d.flq.pgShift len) 1) d.conf.rngsz) len).sdesc := by
  unfold rcvPkt
  simp only
  generalize (if d.conf.cmplUddEn then some cmpl.entry else none) = udd
  split
  · split_ifs
    · exact ⟨rfl, rfl⟩
    · exact ⟨rfl, rfl⟩
  · exact ⟨markLoop_avail _ _ _ _, markLoop_sdesc _ _ _ _⟩

/-- **A power of two**: mask and shift count as the device does. -/
theorem charges_two_pow {d : Descq} {cmpl : CmplInfo} {k len : ℕ} (hk : k ≤ 31)
    (hshift : d.flq.pgShift = k) (hfull : d.flq.fullLen = 2 ^ k) (hlen : len ≤ 65535)
    (hwhole : (d.flq.sdesc (hwLast d cmpl.pidx (2 ^ k) len)).len = d.flq.fullLen) :
    Charges d cmpl (2 ^ k) len := by
  obtain ⟨hav, hsd⟩ := rcvPkt_charge d cmpl len
  have hpos := pktNr_pos (Nat.two_pow_pos k) len
  have hle : pktNr (2 ^ k) len ≤ 65535 := by
    rcases Nat.eq_zero_or_pos len with h0 | h0
    · rw [show pktNr (2 ^ k) len = 1 from if_pos h0]
      omega
    · have hb := (pktNr_bounds (Nat.two_pow_pos k) h0).1
      have hmul : pktNr (2 ^ k) len - 1 ≤ (pktNr (2 ^ k) len - 1) * 2 ^ k :=
        Nat.le_mul_of_pos_right _ (Nat.two_pow_pos k)
      omega
  rw [hshift, flNr_eq hk hlen] at hav hsd
  rw [u32Sub_of_le (by omega) hpos] at hsd
  refine ⟨hav, ?_⟩
  rw [hsd]
  unfold Flq.setLastLen
  by_cases h0 : len = 0
  · rw [if_neg (not_not.mpr h0)]
    show (Function.update d.flq.sdesc _ _ _).len = _
    rw [hwLast, Function.update_self, h0]
    exact (Nat.zero_sub _).symm
  rw [if_pos h0]
  have hlast := lastLen_eq hk (Nat.pos_of_ne_zero h0)
  simp only [hshift]
  by_cases hmask : len &&& u32Sub (1 <<< k) 1 = 0
  · -- whole buffers only
    rw [if_neg (not_not.mpr hmask), hwhole, hfull, hlast, if_pos hmask]
  · rw [if_pos hmask, hlast, if_neg hmask]
    show (Function.update d.flq.sdesc _ _ _).len = _
    rw [hwLast, Function.update_self]

/-! ## The sizes that work -/

/-- The free list of a queue just started. -/
theorem RxStarts.flq {d : Descq} {env : StartEnv} {csr : GlobalCsrConf} (h : RxStarts d env csr) :
    (descqStart d env).1.flq.pgOrder = pgOrderOf (csr.c2hBufSz d.conf.c2hBufSzIdx) ∧
      (descqStart d env).1.flq.pgShift = (fls (csr.c2hBufSz d.conf.c2hBufSzIdx) + 255) % 256 ∧
      (descqStart d env).1.flq.fullLen = rxBufLen (csr.c2hBufSz d.conf.c2hBufSzIdx) := by
  obtain ⟨slot, sdesc, intrId, heq, -⟩ := startC2h_eq h.tables h.kind h.ok
  rw [heq]
  exact ⟨rfl, rfl, rfl⟩

/-- The order of its pages is one of the kernel's. -/
theorem RxStarts.order {d : Descq} {env : StartEnv} {csr : GlobalCsrConf} (h : RxStarts d env csr) :
    pgOrderOf (csr.c2hBufSz d.conf.c2hBufSzIdx) < maxOrder := by
  obtain ⟨pg, addr, hfill⟩ := startC2h_first h.tables h.kind h.ok h.slots
  exact h.pages 0 pg addr hfill

/-- The pages are as long as the power of two below the size. -/
theorem rxBufLen_of_order {n : ℕ} (h : n < 2 ^ 32) (hord : pgOrderOf n < maxOrder) :
    rxBufLen n = 2 ^ n.log2 := by
  obtain ⟨h0, hlo, hhi⟩ := (pgOrderOf_lt_iff h).mp hord
  have hself := (fullLen_fresh {} 0 (fun _ => {}) (show pageShift ≤ n.log2 from hlo)
    (show n.log2 ≤ 31 by omega)).2
  have hfls : fls (2 ^ n.log2) = fls n := by
    rw [fls_two_pow]
    exact (if_neg h0).symm
  unfold Flq.fullLen Flq.fresh at hself
  simp only [hfls] at hself
  exact hself

/-- **For which sizes the receive buffers fit**: for every start that succeeds, exactly for the
powers of two. -/
theorem rx_bufs_iff {d : Descq} {env : StartEnv} {csr : GlobalCsrConf} (h : RxStarts d env csr) :
    RxBufsFit (descqStart d env).1 (csr.c2hBufSz d.conf.c2hBufSzIdx) ↔
      ∃ k, csr.c2hBufSz d.conf.c2hBufSzIdx = 2 ^ k := by
  have hord := h.order
  obtain ⟨horder, hshift, hfull⟩ := h.flq
  have hlen := rxBufLen_of_order h.word hord
  obtain ⟨h0, hlo, hhi⟩ := (pgOrderOf_lt_iff h.word).mp hord
  generalize csr.c2hBufSz d.conf.c2hBufSzIdx = n at hord horder hshift hfull hlen h0 hlo hhi ⊢
  constructor
  -- a page shorter than what the hardware is told leaves no room for a full buffer
  · intro hfit
    have hroom := hfit.room
    rw [hfull, hlen] at hroom
    exact ⟨n.log2, le_antisymm hroom (Nat.log2_self_le h0)⟩
  · rintro ⟨k, rfl⟩
    rw [Nat.log2_two_pow] at hlen hlo hhi
    have hk : (fls (2 ^ k) + 255) % 256 = k := by
      rw [fls_two_pow]
      omega
    refine ⟨?_, ?_, ?_⟩
    · rw [hfull, hlen]
    · rw [horder]
      exact hord
    · intro d' cmpl len hsame hle hwhole
      refine charges_two_pow (by omega) ?_ ?_ hle hwhole
      · rw [hsame.pgShift, hshift, hk]
      · unfold Flq.fullLen at hfull ⊢
        rw [hsame.pgOrder, hfull, hlen]

/-- CSR tables with rings of four entries and one size of buffers. -/
def oneSize (bufsz : ℕ) : GlobalCsrConf where
  ringSz := fun _ => 4
  c2hBufSz := fun _ => bufsz

/-- A clean start with it. -/
theorem cleanStart_rxStarts {bufsz : ℕ} (h : bufsz < 2 ^ 32) (hord : pgOrderOf bufsz < maxOrder)
    (hok : (descqStart (freshC2h 0 0 true) (cleanStart (oneSize bufsz))).2 = 0) :
    RxStarts (freshC2h 0 0 true) (cleanStart (oneSize bufsz)) (oneSize bufsz) :=
  ⟨rfl, rfl, h, fun _ _ _ _ => hord, (by decide : u32Sub 4 1 ≠ 0), hok⟩

/-- Buffers of two pages. -/
theorem rx_bufs_8192 :
    RxBufsFit (descqStart (freshC2h 0 0 true) (cleanStart (oneSize 8192))).1 8192 :=
  (rx_bufs_iff (cleanStart_rxStarts (by decide) (by decide) (by decide))).mpr ⟨13, rfl⟩

/-- **Buffers of 6000 bytes**: the start succeeds with pages of 4096, and a packet of 5000 bytes,
which the device puts into one buffer, is charged two. -/
theorem buffers_too_small :
    RxStarts (freshC2h 0 0 true) (cleanStart (oneSize 6000)) (oneSize 6000) ∧
      (descqStart (freshC2h 0 0 true) (cleanStart (oneSize 6000))).1.flq.fullLen = 4096 ∧
      pktNr 6000 5000 = 1 ∧
      (rcvPkt (descqStart (freshC2h 0 0 true) (cleanStart (oneSize 6000))).1 (cmplInfo 0)
        5000).1.avail = 0 ∧
      ¬ RxBufsFit (descqStart (freshC2h 0 0 true) (cleanStart (oneSize 6000))).1 6000 := by
  have hlen : (descqStart (freshC2h 0 0 true) (cleanStart (oneSize 6000))).1.flq.fullLen
      = 4096 := by
    decide
  refine ⟨cleanStart_rxStarts (by decide) (by decide) (by decide), hlen, by decide, by decide,
    fun h => ?_⟩
  have hroom := h.room
  rw [hlen] at hroom
  exact absurd hroom (by decide)

end Qdma
