/-
# The geometry of the rings

The driver takes the sizes of a queue's rings and receive buffers from the CSR tables when it
starts the queue; the device takes them from the same tables, by the indices in the contexts.
`geometry_iff` says for which configurations both come to the same.

For the descriptor ring and the size of the completion entries they always do.  The completion
ring of the driver has the size of its descriptor ring, not that of its own index, and the
index of the buffer size is programmed for queues with prefetch only.
-/
import Qdma.Contexts
import Qdma.StartC2h

namespace Qdma

open BitField

/-! ## What is allocated -/

/-- `get_desc_size`. -/
def getDescSize (conf : QueueConf) : ℕ := if !conf.st then 32 else if conf.c2h then 8 else 16

/-- `sizeof(struct qdma_desc_wb)` and `sizeof(struct qdma_c2h_wrb_wb)`. -/
def statusSize : ℕ := 8

/-- `len` in `desc_ring_alloc`: the entries, and the status behind them. -/
def descRingLen (ringSz descSz wbSz : ℕ) : ℕ := u32 (ringSz * descSz + wbSz)

/-- The length of the pages allocated for a receive buffer of size `bufsz`. -/
def rxBufLen (bufsz : ℕ) : ℕ :=
  u32 (pageSize <<< (((fls bufsz + 255) % 256 + 256 - pageShift) % 256))

/-! ## Agreement -/

/-- The index of the buffer size in a prefetch context. -/
def pftchBufIdx (w : List ℕ) : ℕ := pftchW0BufSizeIdx.get (w.getD 0 0)

/-- The sizes the driver uses for its descriptor ring are those of the SW context. -/
structure RingAgrees (d : Descq) (csr : GlobalCsrConf) (c : SwContext) : Prop where
  entries : u32 (d.conf.rngsz + 1) = csr.ringSz c.rngSz
  length : descRingLen d.conf.rngsz (getDescSize d.conf) statusSize
    = descRingLen (u32Sub (csr.ringSz c.rngSz) 1) (8 <<< c.dscSz) statusSize

/-- Those for its completion ring are those of the writeback context. -/
structure CmplAgrees (d : Descq) (csr : GlobalCsrConf) (c : WrbContext) : Prop where
  entries : u32 (d.conf.rngszWrb + 1) = csr.ringSz c.rngSz
  entrySize : d.wbEntryLen = 8 <<< c.descSize
  length : descRingLen d.conf.rngszWrb d.wbEntryLen statusSize
    = descRingLen (u32Sub (csr.ringSz c.rngSz) 1) (8 <<< c.descSize) statusSize

/-- Those of its receive buffers are those of the prefetch context. -/
structure BufAgrees (d : Descq) (csr : GlobalCsrConf) (idx : ℕ) : Prop where
  size : d.conf.c2hBufsz = csr.c2hBufSz idx
  length : d.flq.fullLen = csr.c2hBufSz idx

/-- **Driver and device agree** on the geometry of the queue. -/
def GeometryAgrees (d : Descq) (csr : GlobalCsrConf) (e : CtxtEnv) : Prop :=
  RingAgrees d csr (SwContext.decode (makeSwContext d e)) ∧
    ((d.conf.st && d.conf.c2h) = true →
      CmplAgrees d csr (WrbContext.decode (makeWrbContext d e)) ∧
        BufAgrees d csr (pftchBufIdx (makePrefetchContext d)))

/-- The configurations for which they do: on an ST C2H queue the two ring indices select the
same size, so do the buffer index and, without prefetch, index 0, and the buffer is a whole
number of pages that is a power of two. -/
def GeometryOk (conf : QueueConf) (csr : GlobalCsrConf) : Prop :=
  (conf.st && conf.c2h) = true →
    csr.ringSz conf.cmplRngSzIdx = csr.ringSz conf.descRngSzIdx ∧
      (conf.pfetchEn = false → csr.c2hBufSz 0 = csr.c2hBufSz conf.c2hBufSzIdx) ∧
      rxBufLen (csr.c2hBufSz conf.c2hBufSzIdx) = csr.c2hBufSz conf.c2hBufSzIdx

/-- The tables hold 32-bit words. -/
def GlobalCsrConf.Words (csr : GlobalCsrConf) : Prop :=
  ∀ i, csr.ringSz i < 2 ^ 32 ∧ csr.c2hBufSz i < 2 ^ 32

theorem u32_pred_succ {n : ℕ} (h : n < 2 ^ 32) : u32 (u32Sub n 1 + 1) = n := by
  unfold u32 u32Sub
  omega

theorem getDescSize_eq (conf : QueueConf) : getDescSize conf = 8 <<< dscSzOf conf := by
  unfold getDescSize dscSzOf
  cases conf.st <;> cases conf.c2h <;> rfl

/-- The buffer index of a prefetch context. -/
theorem pftchBufIdx_eq {d : Descq} (h : d.conf.Widths) :
    pftchBufIdx (makePrefetchContext d) = if d.conf.pfetchEn then d.conf.c2hBufSzIdx else 0 := by
  unfold pftchBufIdx makePrefetchContext
  simp only [List.getD_cons_zero]
  cases hp : d.conf.pfetchEn with
  | false =>
      simp only [Bool.false_eq_true, if_false]
      decide
  | true =>
      simp only [if_true]
      set fs : List (Field × ℕ) := [(pftchW0FBypass, d.conf.bypass.toNat),
        (pftchW0BufSizeIdx, d.conf.c2hBufSzIdx), (pftchW0FEnPftch, 1)] with hfs
      have hfits : Fits fs := by
        rw [hfs]
        unfold Fits
        simp only [List.forall_mem_cons, List.not_mem_nil, false_imp_iff, implies_true, and_true]
        exact ⟨Bool.toNat_lt _, h.c2hBufSzIdx, Nat.one_lt_two⟩
      have hplaces : fs.map Prod.fst = [pftchW0FBypass, pftchW0BufSizeIdx, pftchW0FEnPftch] := rfl
      have hpack : pftchW0FBypass.put d.conf.bypass.toNat |||
          pftchW0BufSizeIdx.put d.conf.c2hBufSzIdx ||| pftchW0FEnPftch.put true.toNat = pack fs := by
        rw [hfs]
        unfold pack
        simp only [List.foldl_cons, List.foldl_nil, Nat.zero_or]
        rfl
      rw [hpack, u32_pack hfits (by rw [hplaces]; decide)]
      exact get_fields hfits (by rw [hplaces]; decide) 1 rfl

theorem geometry_ring {d : Descq} {csr : GlobalCsrConf} {e : CtxtEnv} (hw : d.conf.Widths)
    (he : e.Widths) (hcsr : csr.Words)
    (hr : d.conf.rngsz = u32Sub (csr.ringSz d.conf.descRngSzIdx) 1) :
    RingAgrees d csr (SwContext.decode (makeSwContext d e)) := by
  rw [swContext_decode hw he]
  refine ⟨?_, ?_⟩
  · rw [hr]
    exact u32_pred_succ (hcsr _).1
  · rw [hr, getDescSize_eq]
    rfl

/-- A queue with the configuration of a started one. -/
theorem geometry_conf {d d' : Descq} {csr : GlobalCsrConf} (hw : d.conf.Widths)
    (hc : d'.conf = (qdmaDescqConfigComplete d csr).conf) :
    d'.conf.Widths ∧ (d'.conf.st && d'.conf.c2h) = (d.conf.st && d.conf.c2h) ∧
      d'.conf.descRngSzIdx = d.conf.descRngSzIdx ∧ d'.conf.cmplRngSzIdx = d.conf.cmplRngSzIdx ∧
      d'.conf.c2hBufSzIdx = d.conf.c2hBufSzIdx ∧ d'.conf.pfetchEn = d.conf.pfetchEn ∧
      d'.conf.rngsz = u32Sub (csr.ringSz d.conf.descRngSzIdx) 1 ∧
      d'.conf.rngszWrb = u32Sub (csr.ringSz d.conf.descRngSzIdx) 1 ∧
      d'.conf.c2hBufsz = csr.c2hBufSz d.conf.c2hBufSzIdx := by
  have hsz : (if d.conf.cmplDescSz = descSzRsv then 0 else d.conf.cmplDescSz) < 2 ^ 2 := by
    split_ifs
    · decide
    · exact hw.cmplDescSz
  rw [hc]
  unfold qdmaDescqConfigComplete
  simp only
  split_ifs
  · exact ⟨⟨hw.descRngSzIdx, hw.c2hBufSzIdx, hw.cmplRngSzIdx, hsz, hw.cmplTimerIdx,
      hw.cmplCntThIdx, hw.cmplTrigMode⟩, rfl, rfl, rfl, rfl, rfl, rfl, rfl, rfl⟩
  · exact ⟨⟨hw.descRngSzIdx, hw.c2hBufSzIdx, hw.cmplRngSzIdx, hw.cmplDescSz, hw.cmplTimerIdx,
      hw.cmplCntThIdx, hw.cmplTrigMode⟩, rfl, rfl, rfl, rfl, rfl, rfl, rfl, rfl⟩

/-- **Where driver and device agree**: for every queue that starts, whatever its configuration
and the CSR tables. -/
theorem geometry_iff {d : Descq} {env : StartEnv} {csr : GlobalCsrConf} {e : CtxtEnv}
    (hw : d.conf.Widths) (he : e.Widths) (hwords : csr.Words) (hcsr : env.csr = some csr)
    (hok : (descqStart d env).2 = 0) :
    GeometryAgrees (descqStart d env).1 csr e ↔ GeometryOk d.conf csr := by
  cases hkind : (d.conf.st && d.conf.c2h) with
  | false =>
      -- there is no completion ring
      have hconf : (descqStart d env).1.conf = (qdmaDescqConfigComplete d csr).conf := by
        rw [descqStart_eq hcsr hkind hok, configComplete_eq csr hkind]
      obtain ⟨hw', hk, hidx, -, -, -, hr, -⟩ := geometry_conf hw hconf
      generalize (descqStart d env).1 = d' at hw' hk hidx hr ⊢
      rw [← hidx] at hr
      constructor
      · intro _ hkt
        rw [hkind] at hkt
        exact absurd hkt (by decide)
      · intro _
        refine ⟨geometry_ring hw' he hwords hr, fun hkt => ?_⟩
        rw [hk, hkind] at hkt
        exact absurd hkt (by decide)
  | true =>
      obtain ⟨slot, sdesc, intrId, heq, -⟩ := startC2h_eq hcsr hkind hok
      have hcc : qdmaDescqConfigComplete d csr = startConf d csr := configComplete_c2h hkind
      have hconf : (descqStart d env).1.conf = (qdmaDescqConfigComplete d csr).conf := by
        rw [heq, hcc]
        rfl
      have hentry : (descqStart d env).1.wbEntryLen
          = 8 <<< (descqStart d env).1.conf.cmplDescSz := by
        rw [heq]
        rfl
      have hfull : (descqStart d env).1.flq.fullLen
          = rxBufLen (descqStart d env).1.conf.c2hBufsz := by
        rw [heq]
        rfl
      obtain ⟨hw', hk, hd, hcm, hbi, hpf, hr, hrw, hb⟩ := geometry_conf hw hconf
      generalize (descqStart d env).1 = d' at hw' hk hd hcm hbi hpf hr hrw hb hentry hfull ⊢
      rw [← hd] at hr
      have hring := geometry_ring hw' he hwords hr
      have hkt := hk.trans hkind
      have hpred : u32 (d'.conf.rngszWrb + 1) = csr.ringSz d.conf.descRngSzIdx := by
        rw [hrw]
        exact u32_pred_succ (hwords _).1
      unfold GeometryAgrees GeometryOk
      rw [wrbContext_decode hw' he, pftchBufIdx_eq hw', hpf, hbi]
      constructor
      · rintro ⟨-, hagree⟩ -
        obtain ⟨hcmpl, hbuf⟩ := hagree hkt
        have hsize := hb.symm.trans hbuf.size
        refine ⟨?_, fun hno => ?_, ?_⟩
        · rw [← hpred, hcmpl.entries, ← hcm]
          rfl
        · rw [hno] at hsize
          exact hsize.symm
        · have hlen := hfull.symm.trans hbuf.length
          rw [hb] at hlen
          rw [hlen, ← hsize]
      · intro hgeo
        obtain ⟨hrng, hbuf, hlen⟩ := hgeo hkind
        have hidx : csr.c2hBufSz (if d.conf.pfetchEn then d.conf.c2hBufSzIdx else 0)
            = csr.c2hBufSz d.conf.c2hBufSzIdx := by
          cases hp : d.conf.pfetchEn with
          | false => exact hbuf hp
          | true => rfl
        refine ⟨hring, fun _ => ⟨⟨?_, hentry, ?_⟩, ?_, ?_⟩⟩
        · show _ = csr.ringSz d'.conf.cmplRngSzIdx
          rw [hpred, hcm, hrng]
        · show _ = descRingLen (u32Sub (csr.ringSz d'.conf.cmplRngSzIdx) 1)
            (8 <<< d'.conf.cmplDescSz) statusSize
          rw [hcm, hrng, hentry, hrw]
        · rw [hb, hidx]
        · rw [hfull, hb, hlen, hidx]

/-- CSR tables with two sizes of each kind. -/
def twoSizes : GlobalCsrConf where
  ringSz := fun i => if i = 1 then 8 else 4
  c2hBufSz := fun i => if i = 1 then 8192 else 4096

/-- An ST C2H queue just added. -/
def freshC2h (cmplRngSzIdx c2hBufSzIdx : ℕ) (pfetchEn : Bool) : Descq where
  conf := { st := true, c2h := true, cmplRngSzIdx, c2hBufSzIdx, pfetchEn }
  enabled := true

/-- A start in which nothing fails. -/
def cleanStart (csr : GlobalCsrConf) : StartEnv where
  csr := some csr
  alloc := { desc := true, wrb := true, sdesc := true, fill := fun i => .ok i (4096 * (i + 1)) }
  irq := none
  ctx := .ok
  ctxCleared := true

/-- The function and the addresses of the queue. -/
def cleanEnv : CtxtEnv := { funcId := 4, descBus := 2 ^ 40, descWrbBus := 2 ^ 40 + 4096 }

/-- A queue with prefetch whose rings are of one size. -/
theorem geometry_iff_prefetch :
    GeometryAgrees (descqStart (freshC2h 0 1 true) (cleanStart twoSizes)).1 twoSizes
      cleanEnv := by
  have hwords : twoSizes.Words := by
    intro i
    unfold twoSizes
    constructor <;> dsimp only <;> split_ifs <;> decide
  refine (geometry_iff ⟨by decide, by decide, by decide, by decide, by decide, by decide,
    by decide⟩ ⟨by decide, by decide, by decide, by decide, by decide⟩ hwords rfl
    (by decide)).mpr ?_
  intro _
  decide

/-- **Driver and device disagree** on the size of a completion ring with an index of its own,
and on the size of the buffers of a queue without prefetch. -/
theorem geometry_differs :
    (descqStart (freshC2h 1 0 true) (cleanStart twoSizes)).2 = 0 ∧
      ¬ GeometryAgrees (descqStart (freshC2h 1 0 true) (cleanStart twoSizes)).1 twoSizes cleanEnv ∧
    (descqStart (freshC2h 0 1 false) (cleanStart twoSizes)).2 = 0 ∧
      ¬ GeometryAgrees (descqStart (freshC2h 0 1 false) (cleanStart twoSizes)).1 twoSizes
        cleanEnv := by
  refine ⟨by decide, fun h => ?_, by decide, fun h => ?_⟩
  · have hentries := (h.2 (by decide)).1.entries
    exact absurd hentries (by decide)
  · have hsize := (h.2 (by decide)).2.size
    exact absurd hsize (by decide)

end Qdma
